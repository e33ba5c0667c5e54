import DerTemplate.Proofs.RoundTrip.Tree

namespace DerTemplate.RoundTrip

open Decoding (Destination Session)

theorem recovered_slot {forest : Forest Pair} {found : List Decoding.Slot}
    (h : Recovered forest found) {i : Nat} {entry : Entry} {slot : Encoding.Slot}
    {destination : Destination} (hentry : forest.schema[i]? = some entry)
    (hslot : forest.slots[i]? = some (slot, destination)) :
    ∃ got, found[i]? = some got ∧
      if (given forest).excludes false i then got.present = false
      else ∃ below, (given forest).subtree i = .node entry slot below .nil ∧
        Recovers entry slot below.encoding destination got := by
  induction forest generalizing found i with
  | nil => exact nomatch hentry
  | node root pair below next ihb ihn =>
    obtain ⟨rootSlot, rootDestination⟩ := pair
    obtain ⟨first, inner, rest, rfl, hinner, hhere, hrest⟩ := h
    rw [given, Forest.map]
    cases i with
    | zero =>
      cases hentry
      cases hslot
      refine ⟨first, rfl, ?_⟩
      simp only [Forest.excludes, Bool.or_false, Forest.subtree]
      split
      · rename_i hsuppressed
        rw [if_pos hsuppressed] at hhere
        exact hhere first List.mem_cons_self
      · rename_i hwritten
        rw [if_neg hwritten] at hhere
        exact ⟨_, rfl, hhere.1⟩
    | succ i =>
      rw [Forest.schema, List.getElem?_cons_succ] at hentry
      rw [Forest.slots, List.getElem?_cons_succ] at hslot
      rw [List.getElem?_cons_succ]
      simp only [Forest.excludes, Bool.or_false, Forest.subtree, Forest.size_map]
      by_cases hlt : i < below.size
      · rw [List.getElem?_append_left (by simpa using hlt)] at hentry hslot
        simp only [List.getElem?_append_left (hinner ▸ hlt), if_pos hlt]
        cases hsuppressed : rootSlot.suppressed with
        | true =>
          rw [hsuppressed, if_pos rfl] at hhere
          have hhidden : (below.map Prod.fst).excludes true i = true :=
            Forest.excludes_hidden (by simpa using hlt)
          simp only [hhidden, if_true]
          exact ⟨inner[i], List.getElem?_eq_getElem (by omega),
            hhere _ (List.mem_cons_of_mem _ (List.getElem_mem _))⟩
        | false =>
          rw [hsuppressed, if_neg Bool.false_ne_true] at hhere
          exact ihb hhere.2 hentry hslot
      · rw [List.getElem?_append_right (by simpa using hlt)] at hentry hslot
        rw [Forest.length_schema] at hentry
        rw [Forest.length_slots] at hslot
        simp only [List.getElem?_append_right (show inner.length ≤ i by omega), hinner, if_neg hlt]
        exact ihn hrest hentry hslot

def pairs (schema : Schema) (slots : List Encoding.Slot) (destinations : List Destination) :
    Forest Pair :=
  Forest.plant schema (slots.zip destinations)

section

variable (schema : Schema) {slots : List Encoding.Slot} {session : Session}

theorem given_pairs {destinations : List Destination} (h : slots.length = destinations.length) :
    given (pairs schema slots destinations) = Forest.plant schema slots := by
  rw [given, pairs, ← Forest.plant_map, List.map_fst_zip (Nat.le_of_eq h)]

theorem asked_pairs (h : slots.length = session.slots.length) :
    asked (pairs schema slots (session.slots.map Decoding.Slot.destination)) =
      Forest.plant schema (session.slots.map Decoding.Slot.clear) := by
  have hslots : (slots.zip (session.slots.map Decoding.Slot.destination)).map
      (fun pair => Decoding.Slot.ofDestination pair.2) =
        session.slots.map Decoding.Slot.clear := by
    rw [← Function.comp_def, ← List.map_map, List.map_snd_zip (by simp [h]), List.map_map]
    rfl
  rw [asked, pairs, ← Forest.plant_map, hslots]

end

variable {schema : Schema} {slots : List Encoding.Slot} {session : Session}

theorem decode_encoding (hvalid : schema.validate = .ok ()) (hslots : slots.length = schema.length)
    (hcursor : session.cursor = 0) (hlength : session.slots.length = schema.length)
    (hwritable : (Forest.plant schema slots).Writable)
    (hsuited : Suited (pairs schema slots (session.slots.map Decoding.Slot.destination)))
    (hdistinct : Distinct none (pairs schema slots (session.slots.map Decoding.Slot.destination)))
    (hlimit : (Forest.plant schema slots).encoding.length < lengthLimit) (options : Options)
    (complete : Bool) {maxIndex : Nat}
    (hmax : (Forest.plant schema slots).encoding.length ≤ maxIndex) :
    ∃ found, session.decode options schema (Forest.plant schema slots).encoding complete maxIndex =
        .ok ⟨(Forest.plant schema slots).encoding.length, found⟩ ∧
      Recovered (pairs schema slots (session.slots.map Decoding.Slot.destination)) found := by
  have hasked := asked_pairs schema (hslots.trans hlength.symm)
  have hgiven : given (pairs schema slots (session.slots.map Decoding.Slot.destination)) =
      Forest.plant schema slots := given_pairs schema (by simp [hslots, hlength])
  have hnested : (pairs schema slots (session.slots.map Decoding.Slot.destination)).Nested 0 :=
    Schema.nested_plant hvalid _
  generalize pairs schema slots (session.slots.map Decoding.Slot.destination) = forest at *
  rw [← hgiven] at hwritable hlimit hmax ⊢
  generalize hinput : (given forest).encoding = input at *
  have hstop : min maxIndex input.length = input.length := Nat.min_eq_right hmax
  have hholds : input.Holds 0 (given forest).encoding := hinput ▸ Bytes.holds_self input
  obtain ⟨found, hfound, hrecovered⟩ := regained options input forest 0 0 0 complete none
    hnested hwritable hsuited hdistinct hholds (hinput ▸ hlimit)
  rw [hinput, Nat.zero_add, hasked] at hfound
  refine ⟨found, (Decoding.decode_eq_ok_iff (lt_wordLimit hlimit)).mpr ⟨?_, ?_, ?_⟩, hrecovered⟩
  · exact Decoding.check_ok hvalid hlength (by omega)
  · rw [hstop, hcursor]
    exact hfound
  · rw [hstop]
    exact Decoding.checkEnd_eq_ok_iff.mpr fun _ => rfl

theorem decode_encode {written : Encoding.Written}
    (hcursor : session.cursor = 0) (hlength : session.slots.length = schema.length)
    (hsuited : Suited (pairs schema slots (session.slots.map Decoding.Slot.destination)))
    (hdistinct : Distinct none (pairs schema slots (session.slots.map Decoding.Slot.destination)))
    (hencode : Encoding.encode schema slots = .ok written) (options : Options) (complete : Bool)
    {maxIndex : Nat} (hmax : written.output.buffer.length ≤ maxIndex) :
    ∃ found, session.decode options schema written.output.buffer complete maxIndex =
        .ok ⟨written.output.buffer.length, found⟩ ∧
      found.length = schema.length ∧
      ∀ i entry slot asked, schema[i]? = some entry → slots[i]? = some slot →
        session.slots[i]? = some asked → ∃ got, found[i]? = some got ∧
          if Encoding.excluded schema slots i then got.present = false
          else ∃ below, (Forest.plant schema slots).subtree i = .node entry slot below .nil ∧
            Recovers entry slot below.encoding asked.destination got := by
  obtain ⟨sizing, hsize, _⟩ := bind_eq_ok_iff.mp hencode
  obtain ⟨hvalid, hslots, htotal, hwritable, _⟩ := Encoding.size_eq_ok hsize
  have hbuffer := Encoding.encode_of_size hsize
  rw [hencode] at hbuffer
  split at hbuffer
  · rename_i hlimit
    rw [htotal, ← Forest.length_encoding] at hlimit
    rw [Except.ok.inj hbuffer] at hmax ⊢
    obtain ⟨found, hdecode, hrecovered⟩ := decode_encoding hvalid hslots hcursor hlength hwritable
      hsuited hdistinct hlimit options complete hmax
    have hzip : (slots.zip (session.slots.map Decoding.Slot.destination)).length =
        schema.length := by
      simp [hslots, hlength]
    have hschema : (pairs schema slots (session.slots.map Decoding.Slot.destination)).schema =
      schema := Forest.schema_plant hzip
    have hplanted : (pairs schema slots (session.slots.map Decoding.Slot.destination)).slots =
      slots.zip (session.slots.map Decoding.Slot.destination) := Forest.slots_plant hzip
    have hgiven : given (pairs schema slots (session.slots.map Decoding.Slot.destination)) =
      Forest.plant schema slots := given_pairs schema (by simp [hslots, hlength])
    refine ⟨found, hdecode, ?_, ?_⟩
    · rw [length_recovered hrecovered, ← Forest.length_schema, hschema]
    · intro i entry slot asked hentry hslot hdestination
      have hexcluded := Encoding.excluded_plant hvalid hslots
        (List.getElem?_eq_some_iff.mp hentry).1
      have hslotPair : (slots.zip (session.slots.map Decoding.Slot.destination))[i]? =
          some (slot, asked.destination) := by
        rw [List.getElem?_zip_eq_some]
        exact ⟨hslot, by rw [List.getElem?_map, hdestination]; rfl⟩
      have hslotFound := recovered_slot hrecovered (hschema ▸ hentry) (hplanted ▸ hslotPair)
      rw [hgiven] at hslotFound
      rw [hexcluded]
      exact hslotFound
  · cases hbuffer

def messageSchema : Schema :=
  [.sequence 0, (Entry.leaf 1 Tag.integer).optional, (Entry.leaf 1 Tag.boolean).choice 1,
    (Entry.leaf 1 Tag.bitString).choice 1, .leaf 1 Tag.integer]

def messageSlots : List Encoding.Slot :=
  [.ofValue .none, { Encoding.Slot.ofValue (.uint8 5) with suppressed := true },
    { Encoding.Slot.ofValue .none with suppressed := true }, .ofValue (.bits [0xA8] 3),
    .ofValue (.integer (-129))]

def messageSession : Session :=
  ⟨0, [.ofDestination .none, .ofDestination .uint8, .ofDestination .uint8, .ofDestination .content,
    .ofDestination (.integer true)]⟩

theorem encode_message :
    ∃ written, Encoding.encode messageSchema messageSlots = .ok written ∧ written.output.buffer =
      [0x30, 0x08, 0x03, 0x02, 0x03, 0xA8, 0x02, 0x02, 0xFF, 0x7F] := by
  obtain ⟨sizing, hsize, htotal⟩ :
      ∃ sizing, Encoding.size messageSchema messageSlots = .ok sizing ∧ sizing.total = 10 :=
    ⟨_, rfl, rfl⟩
  have hencode := Encoding.encode_of_size hsize
  rw [htotal, if_pos (by decide)] at hencode
  exact ⟨_, hencode, by decide +kernel⟩

theorem suited_message :
    Suited (pairs messageSchema messageSlots
      (messageSession.slots.map Decoding.Slot.destination)) := by
  refine ⟨⟨⟨⟨rfl, rfl, rfl, fun _ => rfl⟩, rfl⟩, ?_⟩, trivial⟩
  exact ⟨⟨rfl, nofun⟩, ⟨rfl, nofun⟩, ⟨⟨⟨rfl, rfl, rfl, nofun⟩, rfl⟩, trivial⟩,
    ⟨⟨⟨rfl, rfl, rfl, nofun⟩, rfl⟩, trivial⟩, trivial⟩

theorem distinct_message :
    Distinct none (pairs messageSchema messageSlots
      (messageSession.slots.map Decoding.Slot.destination)) := by
  refine ⟨rfl, ⟨⟨nofun, ?_, fun _ h => absurd rfl h⟩, ⟨nofun, ?_, fun _ _ => rfl⟩, rfl, trivial, rfl,
    trivial, trivial⟩, trivial⟩
  · rintro - tag ⟨⟩
    decide
  · rintro - tag ⟨⟩
    decide

theorem decode_encode_message :
    ∃ written found, Encoding.encode messageSchema messageSlots = .ok written ∧
      written.output.buffer = [0x30, 0x08, 0x03, 0x02, 0x03, 0xA8, 0x02, 0x02, 0xFF, 0x7F] ∧
      messageSession.decode .strict messageSchema written.output.buffer true 10 = .ok ⟨10, found⟩ ∧
      ∃ got, found[4]? = some got ∧ got.present = true ∧ got.value = .integer (-129) := by
  obtain ⟨written, hencode, hbuffer⟩ := encode_message
  have hcursor : messageSession.cursor = 0 := rfl
  have hlength : messageSession.slots.length = messageSchema.length := rfl
  have hmax : written.output.buffer.length ≤ 10 := by
    rw [hbuffer]
    decide
  obtain ⟨found, hdecode, _, hfound⟩ :=
    decode_encode hcursor hlength suited_message distinct_message hencode .strict true hmax
  obtain ⟨got, hgot, hgiven⟩ := hfound 4 _ _ _ rfl rfl rfl
  rw [if_neg (by decide)] at hgiven
  obtain ⟨below, _, hrecovers⟩ := hgiven
  rw [hbuffer] at hdecode
  exact ⟨written, found, hencode, hbuffer, hbuffer ▸ hdecode, got, hgot, hrecovers.present,
    (Option.some.inj hrecovers.value).symm⟩

end DerTemplate.RoundTrip
