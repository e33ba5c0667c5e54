import DerTemplate.Proofs.Encoding.Revisions
import DerTemplate.Proofs.RoundTrip.Numbers

namespace DerTemplate.Encoding

variable {schema : Schema} {entry : Entry} {slot : Slot} {n : Int}

def Value.widened (value : Value) : Value := value.number?.elim value .integer

def Slot.widened (slot : Slot) (entry : Entry) : Slot :=
  if isNumber entry (slot.baseTag entry) then { slot with value := slot.value.widened } else slot

def widened (schema : Schema) (slots : List Slot) : List Slot :=
  slots.mapIdx fun i slot => schema[i]?.elim slot slot.widened

theorem Slot.widened_cases (slot : Slot) (entry : Entry) :
    slot.widened entry = slot ∨ ∃ n, isNumber entry (slot.baseTag entry) = true ∧
      slot.value.number? = some n ∧ slot.widened entry = { slot with value := .integer n } := by
  unfold widened
  split
  · rename_i hnumber
    cases hvalue : slot.value.number? with
    | none => simp [Value.widened, hvalue]
    | some n => exact .inr ⟨n, hnumber, rfl, by simp [Value.widened, hvalue]⟩
  · exact .inl rfl

theorem Slot.widened_view {α : Type} {f : Slot → α}
    (hf : ∀ (slot : Slot) (value : Value), f { slot with value := value } = f slot) (slot : Slot)
    (entry : Entry) : f (slot.widened entry) = f slot := by
  unfold widened
  split
  · exact hf slot _
  · rfl

theorem map_widened {α : Type} {f : Slot → α}
    (hf : ∀ (slot : Slot) (value : Value), f { slot with value := value } = f slot)
    (schema : Schema) (slots : List Slot) : (widened schema slots).map f = slots.map f := by
  refine List.ext_getElem? fun i => ?_
  simp only [widened, List.getElem?_map, List.getElem?_mapIdx, Option.map_map]
  congr 1
  funext slot
  cases hentry : schema[i]? with
  | none => rfl
  | some entry => exact Slot.widened_view hf slot entry

theorem length_widened (schema : Schema) (slots : List Slot) :
    (widened schema slots).length = slots.length := List.length_mapIdx

theorem getElem?_widened {slots : List Slot} {i : Nat} (hentry : schema[i]? = some entry)
    (hslot : slots[i]? = some slot) : (widened schema slots)[i]? = some (slot.widened entry) := by
  simp [widened, hentry, hslot]

theorem set_widened {i : Nat} (hentry : schema[i]? = some entry) (slots : List Slot) (slot : Slot) :
    (widened schema slots).set i (slot.widened entry) = widened schema (slots.set i slot) := by
  simp [widened, List.mapIdx_set, hentry]

theorem excluded_widened (schema : Schema) (slots : List Slot) (i : Nat) :
    excluded schema (widened schema slots) i = excluded schema slots i :=
  excluded_congr (map_widened (fun _ _ => rfl) schema slots) i

theorem checkChoices_widened (schema : Schema) (slots : List Slot) :
    checkChoices schema (widened schema slots) = checkChoices schema slots := by
  have hfrom (i : Nat) (written : Bool) (rest : List Entry) :
      checkChoicesFrom schema (widened schema slots) i written rest =
        checkChoicesFrom schema slots i written rest := by
    induction rest generalizing i written with
    | nil => rfl
    | cons entry rest ih => simp only [checkChoicesFrom, excluded_widened, ih]
  exact hfrom 0 false schema

theorem childLengths_congr {slots other : List Slot}
    (h : other.map Slot.length = slots.map Slot.length) (schema : Schema) (i depth : Nat) :
    childLengths schema other i depth = childLengths schema slots i depth := by
  have hview (slots : List Slot) : childLengths schema slots i depth =
      let sum := (((((schema.zip (slots.map Slot.length)).drop (i + 1)).takeWhile
        fun p => depth < p.1.depth).filter fun p => p.1.depth == depth + 1).foldl
          (fun n p => n + p.2) 0)
      if sum < wordLimit then .ok sum else fault := by
    simp only [childLengths, List.zip_map_right, ← List.map_drop, List.takeWhile_map,
      List.filter_map, List.foldl_map, Function.comp_def, Prod.map_fst, Prod.map_snd, id]
  rw [hview, hview, h]

theorem measure_value {slots : List Slot} {i : Nat} (hsome : slot.value.isNone = false)
    (hreplace : ∀ encoded, slot.value ≠ .replace encoded) :
    measure schema slots i entry slot = (do
      let children ← (if entry.headerOnly then childLengths schema slots i entry.depth
        else .ok 0 : Outcome Nat)
      if 0 < children then refuse (.internalError (.payloadAndChildren i))
      else measureItem entry (slot.baseTag entry) slot.value i) := by
  rw [measure]
  congr 1
  funext children
  split
  · rename_i encoded hvalue
    exact absurd hvalue (hreplace encoded)
  · rw [hsome, if_neg (fun h => Bool.false_ne_true h.1)]
    rfl

theorem some_of_number {value : Value} (hvalue : value.number? = some n) :
    value.isNone = false ∧ ∀ encoded, value ≠ .replace encoded := by
  cases value with
  | uint8 | uint16 | uint32 | integer => exact ⟨rfl, nofun⟩
  | none | bytes | bits | oid | replace | placeholder => cases hvalue

theorem measure_number {slots : List Slot} {i : Nat}
    (hnumber : isNumber entry (slot.baseTag entry) = true) (hvalue : slot.value.number? = some n) :
    measure schema slots i entry { slot with value := .integer n } =
      measure schema slots i entry slot := by
  have hwide : ({ slot with value := .integer n } : Slot).value.number? = some n := rfl
  obtain ⟨hsome, hreplace⟩ := some_of_number hvalue
  obtain ⟨hsomeWide, hreplaceWide⟩ := some_of_number hwide
  have hitem : measureItem entry (slot.baseTag entry) (.integer n) i =
      measureItem entry (slot.baseTag entry) slot.value i := by
    rw [measureItem, measureItem, layout_number hnumber hvalue, layout_number hnumber rfl]
  rw [measure_value hsome hreplace, measure_value hsomeWide hreplaceWide, ← hitem]
  rfl

theorem measure_widened (schema : Schema) (slots : List Slot) (i : Nat) (entry : Entry)
    (slot : Slot) :
    measure schema (widened schema slots) i entry (slot.widened entry) =
      measure schema slots i entry slot := by
  have hchildren (slot : Slot) : measure schema (widened schema slots) i entry slot =
      measure schema slots i entry slot := by
    simp only [measure, childLengths_congr (map_widened (fun _ _ => rfl) schema slots)]
  rw [hchildren]
  rcases slot.widened_cases entry with hsame | ⟨n, hnumber, hvalue, hwide⟩
  · rw [hsame]
  · rw [hwide, measure_number hnumber hvalue]

def Sizing.widened (schema : Schema) (sizing : Sizing) : Sizing :=
  ⟨Encoding.widened schema sizing.slots, sizing.total⟩

theorem resized_widened (slot : Slot) (entry : Entry) (length contentLength offset : Nat) :
    { slot.widened entry with
      length := length, contentLength := contentLength, offset := offset, sized := true } =
    Slot.widened { slot with
      length := length, contentLength := contentLength, offset := offset, sized := true }
      entry := by
  have hbase : Slot.baseTag { slot with
      length := length, contentLength := contentLength, offset := offset, sized := true } entry =
    slot.baseTag entry := rfl
  rw [Slot.widened, Slot.widened, hbase]
  split <;> rfl

theorem sizeEntry_widened (schema : Schema) (sizing : Sizing) (i : Nat) :
    sizeEntry schema (sizing.widened schema) i =
      Sizing.widened schema <$> sizeEntry schema sizing i := by
  unfold sizeEntry Sizing.widened
  dsimp only
  cases hentry : schema[i]? with
  | none => rfl
  | some entry =>
    cases hslot : sizing.slots[i]? with
    | none =>
      have hnone : (widened schema sizing.slots)[i]? = none := by simp [widened, hslot]
      rw [hnone]
      rfl
    | some slot =>
      rw [getElem?_widened hentry hslot]
      dsimp only
      rw [excluded_widened, measure_widened]
      split
      · rw [resized_widened, set_widened hentry]
        rfl
      · cases measure schema sizing.slots i entry slot with
        | error failure => rfl
        | ok m =>
          simp only [ok_bind]
          split
          · rw [resized_widened, set_widened hentry]
            rfl
          · rfl

theorem sizeBelow_widened (schema : Schema) (k : Nat) (sizing : Sizing) :
    (sizeBelow schema k (sizing.widened schema)).outcome =
      Sizing.widened schema <$> (sizeBelow schema k sizing).outcome := by
  induction k generalizing sizing with
  | zero => rfl
  | succ k ih =>
    rw [sizeBelow, sizeBelow, Attempt.outcome_bind, Attempt.outcome_bind, Attempt.outcome_leaving,
      Attempt.outcome_leaving, sizeEntry_widened]
    cases sizeEntry schema sizing k with
    | error failure => rfl
    | ok next => exact ih next

theorem size_widened (schema : Schema) (slots : List Slot) :
    (size schema (widened schema slots)).outcome =
      Sizing.widened schema <$> (size schema slots).outcome := by
  have hcheck : checkSlots schema (widened schema slots) = checkSlots schema slots := by
    simp only [checkSlots, checkChoices_widened, length_widened]
  rw [size, size, Attempt.outcome_bind, Attempt.outcome_bind, Attempt.outcome_leaving,
    Attempt.outcome_leaving, hcheck]
  cases checkSlots schema slots with
  | error failure => rfl
  | ok _ => exact sizeBelow_widened schema schema.length ⟨slots, 0⟩

def Written.widened (schema : Schema) (written : Written) : Written :=
  ⟨Encoding.widened schema written.slots, written.output⟩

theorem payload_number {tag : Tag} {value : Value} (hnumber : isNumber entry tag = true)
    (hvalue : value.number? = some n) (index : Nat) :
    payload tag value (Content.integerSize n) index = .ok (some (Bytes.ofInt n)) := by
  have hsmall (k : Nat) : smallPayload tag k (Content.integerSize k) = Bytes.ofInt k := by
    rw [smallPayload, if_neg (boolean_of_isNumber hnumber), ← Content.unsignedSize_eq_integerSize,
      Content.ofNat_eq_ofInt]
  cases value with
  | uint8 k | uint16 k | uint32 k =>
    cases hvalue
    exact congrArg (fun octets => Except.ok (some octets)) (hsmall _)
  | integer k =>
    cases hvalue
    rw [payload, if_pos (Bytes.length_ofInt n)]
  | none | bytes | bits | oid | replace | placeholder => cases hvalue

theorem writeItem_number (hnumber : isNumber entry (slot.baseTag entry) = true)
    (hvalue : slot.value.number? = some n) (out : Output) (start index : Nat) :
    writeItem entry { slot with value := .integer n } out start index =
      writeItem entry slot out start index := by
  have hwide : (Value.integer n).number? = some n := rfl
  have hlayout := layout_number hnumber hvalue index
  have hpayload := payload_number hnumber hvalue index
  have hlayoutWide := layout_number hnumber hwide index
  have hpayloadWide := payload_number hnumber hwide index
  have htag : ({ slot with value := .integer n } : Slot).wireTag entry = slot.wireTag entry := rfl
  rw [Slot.baseTag] at hlayout hpayload hlayoutWide hpayloadWide
  unfold writeItem
  cases hslot : slot.value with
  | uint8 k | uint16 k | uint32 k | integer k =>
    rw [hslot] at hlayout hpayload
    simp only [Value.isNone, htag, hlayout, hlayoutWide, ok_bind, hpayload, hpayloadWide]
  | none | bytes | bits | oid | replace | placeholder =>
    rw [hslot] at hvalue
    cases hvalue

theorem writeItem_widened (entry : Entry) (slot : Slot) (out : Output) (start index : Nat) :
    writeItem entry (slot.widened entry) out start index =
      writeItem entry slot out start index := by
  rcases slot.widened_cases entry with hsame | ⟨n, hnumber, hvalue, hwide⟩
  · rw [hsame]
  · rw [hwide, writeItem_number hnumber hvalue]

theorem placeholderStart_widened (entry : Entry) (slot : Slot) (stop : Nat) :
    placeholderStart entry (slot.widened entry) stop = placeholderStart entry slot stop := by
  rcases slot.widened_cases entry with hsame | ⟨n, _, hvalue, hwide⟩
  · rw [hsame]
  · rw [hwide, placeholderStart, placeholderStart]
    cases hslot : slot.value with
    | placeholder length =>
      rw [hslot] at hvalue
      cases hvalue
    | _ => rfl

theorem marked_widened (slot : Slot) (entry : Entry) (start : Option Nat) :
    { slot.widened entry with placeholderAt := start } =
      Slot.widened { slot with placeholderAt := start } entry := by
  have hbase : Slot.baseTag { slot with placeholderAt := start } entry = slot.baseTag entry := rfl
  rw [Slot.widened, Slot.widened, hbase]
  split <;> rfl

theorem writeEntry_widened {i : Nat} (hentry : schema[i]? = some entry) (written : Written)
    (slot : Slot) :
    writeEntry (written.widened schema) i entry (slot.widened entry) =
      Written.widened schema <$> writeEntry written i entry slot := by
  have hstart : Word.sub written.output.limit (slot.widened entry).offset =
      Word.sub written.output.limit slot.offset :=
    congrArg _ (slot.widened_view (f := Slot.offset) (fun _ _ => rfl) entry)
  unfold writeEntry Written.widened
  dsimp only
  rw [hstart]
  cases Word.sub written.output.limit slot.offset with
  | error failure => rfl
  | ok start =>
    simp only [ok_bind, writeItem_widened]
    cases writeItem entry slot written.output start i with
    | error failure => rfl
    | ok placed =>
      simp only [ok_bind, placeholderStart_widened, marked_widened, set_widened hentry]
      rfl

theorem writeFrom_widened (schema : Schema) (written : Written) (i : Nat) :
    (writeFrom schema (written.widened schema) i).outcome =
      Written.widened schema <$> (writeFrom schema written i).outcome := by
  by_cases hi : i < schema.length
  · have hentry : schema[i]? = some schema[i] := List.getElem?_eq_getElem hi
    cases hslot : written.slots[i]? with
    | none =>
      have hfault {written : Written} (h : written.slots[i]? = none) :
          writeFrom schema written i = fault.leaving written.slots := by
        rw [writeFrom, dif_pos hi, h]
      have hnone : (written.widened schema).slots[i]? = none := by
        simp [Written.widened, widened, hslot]
      rw [hfault hslot, hfault hnone]
      rfl
    | some slot =>
      have hwide : (written.widened schema).slots[i]? = some (slot.widened schema[i]) :=
        getElem?_widened hentry hslot
      have hsuppressed : (slot.widened schema[i]).suppressed = slot.suppressed :=
        slot.widened_view (f := Slot.suppressed) (fun _ _ => rfl) _
      rw [writeFrom_eq hentry hslot, writeFrom_eq hentry hwide, hsuppressed]
      split
      · exact writeFrom_widened schema written (schema.subtreeEnd i)
      · rw [Attempt.outcome_bind, Attempt.outcome_bind, Attempt.outcome_leaving,
          Attempt.outcome_leaving, writeEntry_widened hentry]
        cases writeEntry written i schema[i] slot with
        | error failure => rfl
        | ok next => exact writeFrom_widened schema next (i + 1)
  · have hi := Nat.not_lt.mp hi
    rw [writeFrom_length hi, writeFrom_length hi]
    rfl
termination_by schema.length - i
decreasing_by
  · omega
  · have := schema.lt_subtreeEnd i
    omega

theorem write_widened (schema : Schema) (slots : List Slot) (buffer : Bytes) :
    (write schema (widened schema slots) buffer).outcome =
      Written.widened schema <$> (write schema slots buffer).outcome := by
  have htotal : sizedTotal (widened schema slots) = sizedTotal slots := by
    rw [sizedTotal, sizedTotal, map_widened (fun _ _ => rfl)]
  have hall : (widened schema slots).all Slot.sized = slots.all Slot.sized := by
    have hflags := map_widened (f := Slot.sized) (fun _ _ => rfl) schema slots
    simpa [List.all_map] using congrArg (fun flags => flags.all id) hflags
  rw [write, write, length_widened, hall, htotal]
  split
  · split
    · exact writeFrom_widened schema ⟨slots, ⟨buffer, sizedTotal slots⟩⟩ 0
    · rfl
  · rfl

theorem encode_widened (schema : Schema) (slots : List Slot) :
    (encode schema (widened schema slots)).outcome =
      Written.widened schema <$> (encode schema slots).outcome := by
  rw [encode, encode, Attempt.outcome_bind, Attempt.outcome_bind, size_widened]
  cases (size schema slots).outcome with
  | error failure => rfl
  | ok sizing =>
    show Attempt.outcome (_ >>= _) = _ <$> Attempt.outcome (_ >>= _)
    rw [Attempt.outcome_bind, Attempt.outcome_bind, Attempt.outcome_leaving,
      Attempt.outcome_leaving]
    simp only [Sizing.widened]
    cases Bytes.zeros sizing.total with
    | error failure => rfl
    | ok buffer => exact write_widened schema sizing.slots buffer

theorem encoded_congr {slots other : List Slot} (h : widened schema slots = widened schema other) :
    encoded schema slots = encoded schema other := by
  have hview (slots : List Slot) :
      encoded schema slots = encoded schema (widened schema slots) := by
    rw [encoded, encoded, encode_widened]
    cases (encode schema slots).outcome <;> rfl
  rw [hview slots, hview other, h]

end DerTemplate.Encoding
