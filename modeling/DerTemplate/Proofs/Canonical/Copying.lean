import DerTemplate.Proofs.Canonical.Fragments
import DerTemplate.Proofs.Canonical.Sink

namespace DerTemplate.Canonical

open Header (Identifier IsLength Length lengthOctets)

variable {input : Bytes} {idx next : Nat} {sink : Sink} {ledger : Ledger}

theorem length_le_of_holds {part : Bytes} (h : input.Holds idx part) (hsmall : input.length < wordLimit) :
    idx + part.length < wordLimit := Nat.lt_of_le_of_lt h.1 hsmall

namespace Merged

variable {string : Merged} {tag : Tag} {bits : Bool}

theorem copyFragments_eq (string : Merged) (input : Bytes) (idx : Nat) (sink : Sink) :
    string.copyFragments input idx sink =
      ((string.endAt input idx).leaving sink >>= fun found =>
        match found with
        | some next => .ok (next, sink)
        | none => string.copyFragment input idx sink >>= fun (next, sink) =>
          string.copyFragments input next sink) := by
  rw [copyFragments]
  cases hend : string.endAt input idx with
  | error failure => rfl
  | ok found =>
    cases found with
    | some next => rfl
    | none =>
      rw [Outcome.leaving_ok, ok_bind]
      dsimp only
      split
      · rename_i hcopy
        rw [hcopy]
        rfl
      · rename_i hcopy
        rw [hcopy]
        rfl

def Ends (string : Merged) (input : Bytes) (stop next : Nat) : Prop :=
  (string.stop = some stop ∧ next = stop) ∨
    (string.stop = none ∧ input.Holds stop [0x00, 0x00] ∧ next = stop + 2)

theorem endAt_stop {stop : Nat} (h : string.Ends input stop next) :
    string.endAt input stop = .ok (some next) := by
  unfold endAt
  rcases h with ⟨hstop, rfl⟩ | ⟨hstop, hzeros, rfl⟩
  · rw [hstop]
    dsimp only
    rw [if_pos rfl]
  · rw [hstop]
    dsimp only
    rw [hzeros.fetch]
    rfl

theorem endAt_fragment {stop : Nat} (h : string.Ends input stop next) {first : UInt8} {rest : Bytes}
    (hinput : input.Holds idx (first :: rest)) (hfirst : first ≠ Tag.endOfContent)
    (hlt : idx < stop) : string.endAt input idx = .ok none := by
  unfold endAt
  rcases h with ⟨hstop, _⟩ | ⟨hstop, _⟩
  · rw [hstop]
    dsimp only
    rw [if_neg (by omega)]
  · rw [hstop]
    dsimp only
    rw [hinput.fetch, ok_bind, if_neg hfirst]
    rfl

theorem copyFragment_eq {fragment : Fragment} (hsmall : input.length < wordLimit)
    (hlength : IsLength fragment.length fragment.content.length)
    (hlead : string.leadSize ≤ fragment.content.length)
    (hinput : input.Holds idx (fragment.octets tag))
    (hfits : sink.Fits (fragment.content.drop string.leadSize).length) :
    string.copyFragment input idx sink = .ok (idx + (fragment.octets tag).length,
      sink.append (fragment.content.drop string.leadSize)) := by
  have hend := length_le_of_holds hinput hsmall
  rw [Fragment.octets, List.length_cons, List.length_append] at hend
  obtain ⟨_, hbehind⟩ := Bytes.holds_cons_iff.mp hinput
  obtain ⟨hoctets, hcontent⟩ := Bytes.holds_append_iff.mp hbehind
  have hroom := hoctets.1
  have hsplit : fragment.content.take string.leadSize ++ fragment.content.drop string.leadSize =
    fragment.content := List.take_append_drop _ _
  have htake : (fragment.content.take string.leadSize).length = string.leadSize := by
    rw [List.length_take]
    omega
  rw [← hsplit] at hcontent
  obtain ⟨_, hbody⟩ := Bytes.holds_append_iff.mp hcontent
  rw [htake] at hbody
  have hstop : idx + 1 + fragment.length.length + string.leadSize +
      (fragment.content.drop string.leadSize).length =
      idx + 1 + fragment.length.length + fragment.content.length := by
    rw [List.length_drop]
    omega
  have hcopy := Sink.copy_eq hbody hfits
  rw [hstop] at hcopy
  rw [copyFragment, Header.readAnyLength_isLength hlength hoctets hroom, Outcome.leaving_ok,
    ok_bind]
  dsimp only
  rw [Word.add, if_pos (by omega), Outcome.leaving_ok, ok_bind, hcopy, ok_bind, Fragment.octets,
    List.length_cons, List.length_append]
  refine congrArg Except.ok (Prod.ext ?_ rfl)
  dsimp only
  omega

theorem leadSize_le {fragment : Fragment} {rest : List Fragment}
    (h : Fragment.Valid bits (fragment :: rest)) :
    Fragment.leadSize bits ≤ fragment.content.length := by
  cases bits with
  | false => exact Nat.zero_le _
  | true =>
    obtain ⟨unused, hunused, _⟩ := h.2.1 rfl
    obtain ⟨data, hdata⟩ := Content.of_unusedBitCount hunused
    rw [hdata]
    exact Nat.succ_le_succ (Nat.zero_le _)

theorem copyFragments_join {fragments : List Fragment} (hsmall : input.length < wordLimit)
    (hvalid : Fragment.Valid bits fragments) (hlead : string.leadSize = Fragment.leadSize bits)
    (htag : tag ≠ Tag.endOfContent) (hinput : input.Holds idx (Fragment.join tag fragments))
    (hend : string.Ends input (idx + (Fragment.join tag fragments).length) next)
    (hfits : sink.Fits (Fragment.contents bits fragments).length) :
    string.copyFragments input idx sink =
      .ok (next, sink.append (Fragment.contents bits fragments)) := by
  induction fragments generalizing idx sink with
  | nil =>
    rw [copyFragments_eq, show idx = idx + (Fragment.join tag []).length from rfl, endAt_stop hend]
    exact congrArg (fun sink => Except.ok (next, sink)) sink.append_nil.symm
  | cons fragment rest ih =>
    have hjoin : Fragment.join tag (fragment :: rest) =
      fragment.octets tag ++ Fragment.join tag rest := rfl
    have hcontents : Fragment.contents bits (fragment :: rest) =
      fragment.content.drop (Fragment.leadSize bits) ++ Fragment.contents bits rest := rfl
    rw [hjoin] at hinput hend
    rw [hcontents] at hfits
    rw [List.length_append, ← Nat.add_assoc] at hend
    obtain ⟨hfragment, hrest⟩ := Bytes.holds_append_iff.mp hinput
    have hpos : 0 < (fragment.octets tag).length := Nat.succ_pos _
    obtain ⟨hfront, hbehind⟩ := hfits.split
    rw [copyFragments_eq, endAt_fragment hend hfragment htag (by omega), Outcome.leaving_ok, ok_bind]
    dsimp only
    rw [copyFragment_eq hsmall hvalid.1 (hlead ▸ leadSize_le hvalid) hfragment (hlead ▸ hfront),
      ok_bind]
    dsimp only
    rw [hlead, ih hvalid.2.2 hrest hend hbehind, Sink.append_append hfront, hcontents]

end Merged

variable {identifier : Identifier} {length : Option Bytes}

def declared (length : Option Bytes) (size : Nat) : Length :=
  length.elim .indefinite fun _ => .definite size

theorem copyItem_header {size : Nat}
    (hlength : ∀ octets, length = some octets → IsLength octets size)
    (hinput : input.Holds idx (header identifier length)) :
    copyItem input ledger idx sink =
      if identifier.first.isConstructed then
        match ledger.find? idx with
        | none => copyUnchanged input idx (idx + (header identifier length).length)
            (declared length size) sink
        | some record =>
          if identifier.first.isFragmentable then
            copyMerged input identifier.first idx (idx + identifier.octets.length)
              (declared length size) (idx + (header identifier length).length) record sink
          else do
            let sink ← sink.copy input idx (idx + identifier.octets.length)
            let sink ← sink.put (lengthOctets record.contentLength)
            return (idx + (header identifier length).length, sink)
      else copyPrimitive input idx (idx + (header identifier length).length) (declared length size)
        sink (idx + identifier.octets.length) := by
  obtain ⟨hidentifier, hopening⟩ := Bytes.holds_append_iff.mp hinput
  have hread : Header.readAnyLength input (idx + identifier.octets.length) input.length =
      .ok (declared length size, idx + (header identifier length).length) := by
    rw [length_header, ← Nat.add_assoc]
    have hroom := hopening.1
    cases length with
    | some octets => exact Header.readAnyLength_isLength (hlength octets rfl) hopening hroom
    | none => exact Header.readAnyLength_indefinite hopening hroom
  rw [copyItem, (show input.Holds idx (identifier.first :: identifier.number) from
    hidentifier).fetch, Outcome.leaving_ok, ok_bind, if_neg identifier.first_ne,
    Header.identifierSize_octets identifier hidentifier hidentifier.1, Outcome.leaving_ok, ok_bind]
  dsimp only
  rw [hread, Outcome.leaving_ok]
  rfl

theorem copyItem_primitive {octets content : Bytes} (hsmall : input.length < wordLimit)
    (hconstructed : identifier.first.isConstructed = false)
    (hlength : IsLength octets content.length)
    (hinput : input.Holds idx (whole identifier (some octets) content))
    (hfits : sink.Fits (shortest identifier.octets content).length) :
    copyItem input ledger idx sink =
      .ok (idx + (whole identifier (some octets) content).length,
        sink.append (shortest identifier.octets content)) := by
  have hend := length_le_of_holds hinput hsmall
  obtain ⟨hheader, hcontent⟩ := Bytes.holds_append_iff.mp hinput
  obtain ⟨hcontent, _⟩ := Bytes.holds_append_iff.mp hcontent
  obtain ⟨hidentifier, _⟩ := Bytes.holds_append_iff.mp hheader
  have hwhole := length_whole identifier (some octets) content
  have hclosing : (closing (some octets)).length = 0 := rfl
  obtain ⟨hfront, hbehind⟩ := Sink.Fits.split hfits
  obtain ⟨hmiddle, hlast⟩ := hbehind.split
  rw [copyItem_header (fun _ h => Option.some.inj h ▸ hlength) hheader, hconstructed,
    if_neg Bool.false_ne_true, declared, Option.elim_some, copyPrimitive,
    Sink.copy_eq hidentifier hfront, ok_bind, Sink.put_eq hmiddle, ok_bind, Word.add,
    if_pos (by omega), Outcome.leaving_ok, ok_bind, Sink.copy_eq hcontent hlast, ok_bind,
    Sink.append_append hmiddle, Sink.append_append hfront, shortest]
  refine congrArg Except.ok (Prod.ext ?_ rfl)
  dsimp only
  omega

theorem copyItem_kept {octets content : Bytes} (hsmall : input.length < wordLimit)
    (hconstructed : identifier.first.isConstructed = true)
    (hlength : IsLength octets content.length) (hfind : ledger.find? idx = none)
    (hinput : input.Holds idx (whole identifier (some octets) content))
    (hfits : sink.Fits (whole identifier (some octets) content).length) :
    copyItem input ledger idx sink =
      .ok (idx + (whole identifier (some octets) content).length,
        sink.append (whole identifier (some octets) content)) := by
  have hend := length_le_of_holds hinput hsmall
  obtain ⟨hheader, _⟩ := Bytes.holds_append_iff.mp hinput
  have hwhole := length_whole identifier (some octets) content
  have hclosing : (closing (some octets)).length = 0 := rfl
  have hstop : idx + (header identifier (some octets)).length + content.length =
      idx + (whole identifier (some octets) content).length := by omega
  rw [copyItem_header (fun _ h => Option.some.inj h ▸ hlength) hheader, hconstructed, if_pos rfl,
    hfind]
  dsimp only
  rw [declared, Option.elim_some, copyUnchanged, Word.add, if_pos (by omega), hstop,
    Outcome.leaving_ok, ok_bind, Sink.copy_eq hinput hfits]
  rfl

theorem copyItem_rewritten {record : Record} {size : Nat}
    (hconstructed : identifier.first.isConstructed = true)
    (hfragmentable : identifier.first.isFragmentable = false)
    (hlength : ∀ octets, length = some octets → IsLength octets size)
    (hfind : ledger.find? idx = some record)
    (hinput : input.Holds idx (header identifier length))
    (hfits : sink.Fits (identifier.octets ++ lengthOctets record.contentLength).length) :
    copyItem input ledger idx sink =
      .ok (idx + (header identifier length).length,
        sink.append (identifier.octets ++ lengthOctets record.contentLength)) := by
  obtain ⟨hidentifier, _⟩ := Bytes.holds_append_iff.mp hinput
  obtain ⟨hfront, hbehind⟩ := hfits.split
  rw [copyItem_header hlength hinput, hconstructed, if_pos rfl, hfind]
  dsimp only
  rw [hfragmentable, if_neg Bool.false_ne_true, Sink.copy_eq hidentifier hfront, ok_bind,
    Sink.put_eq hbehind, ok_bind, Sink.append_append hfront]
  rfl

theorem contentStop_declared {pos size : Nat} (h : pos + size < wordLimit) :
    contentStop pos (declared length size) = .ok (length.map fun _ => pos + size) := by
  cases length with
  | none => rfl
  | some octets =>
    rw [declared, Option.elim_some, contentStop, Word.add, if_pos h]
    rfl

theorem put_lead {bits : Bool} {unused : UInt8}
    (h : sink.Fits (if bits then [unused] else [] : Bytes).length) :
    (if bits then sink.put [unused] else .ok sink : Attempt Sink Sink) =
      .ok (sink.append (if bits then [unused] else [])) := by
  cases bits with
  | false => exact congrArg Except.ok sink.append_nil.symm
  | true => exact Sink.put_eq h

theorem fragments_stop {content : Bytes} (leadSize : Nat)
    (hclosing : input.Holds (idx + (header identifier length).length + content.length)
      (closing length)) :
    Merged.Ends ⟨leadSize, length.map fun _ =>
        idx + (header identifier length).length + content.length⟩ input
      (idx + (header identifier length).length + content.length)
      (idx + (whole identifier length content).length) := by
  have hwhole := length_whole identifier length content
  cases length with
  | some octets =>
    have hnothing : (closing (some octets)).length = 0 := rfl
    exact .inl ⟨rfl, by omega⟩
  | none =>
    have hzeros : (closing none).length = 2 := rfl
    exact .inr ⟨rfl, hclosing, by omega⟩

theorem shortest_merged (base : Tag) (number : Bytes) (bits : Bool) (fragments : List Fragment) :
    shortest (base :: number) (Fragment.merged bits fragments) =
      [base] ++ (number ++ (lengthOctets (Fragment.merged bits fragments).length ++
        ((if bits then [Fragment.unused bits fragments] else []) ++
          Fragment.contents bits fragments))) := rfl

theorem copyItem_string {record : Record} {fragments : List Fragment}
    (hsmall : input.length < wordLimit) (hconstructed : identifier.first.isConstructed = true)
    (hfragmentable : identifier.first.isFragmentable = true)
    (hlength : ∀ octets, length = some octets →
      IsLength octets (Fragment.join identifier.first.base fragments).length)
    (hvalid : Fragment.Valid (isBits identifier) fragments)
    (hfind : ledger.find? idx = some record)
    (hsize : record.contentLength = (Fragment.merged (isBits identifier) fragments).length)
    (hunused : record.unusedBits = Fragment.unused (isBits identifier) fragments)
    (hinput : input.Holds idx
      (whole identifier length (Fragment.join identifier.first.base fragments)))
    (hfits : sink.Fits (shortest (identifier.first.base :: identifier.number)
      (Fragment.merged (isBits identifier) fragments)).length) :
    copyItem input ledger idx sink =
      .ok (idx + (whole identifier length (Fragment.join identifier.first.base fragments)).length,
        sink.append (shortest (identifier.first.base :: identifier.number)
          (Fragment.merged (isBits identifier) fragments))) := by
  have hend := length_le_of_holds hinput hsmall
  have hwhole := length_whole identifier length (Fragment.join identifier.first.base fragments)
  obtain ⟨hheader, hcontent⟩ := Bytes.holds_append_iff.mp hinput
  obtain ⟨hfragments, hclosing⟩ := Bytes.holds_append_iff.mp hcontent
  obtain ⟨hidentifier, _⟩ := Bytes.holds_append_iff.mp hheader
  obtain ⟨_, hnumber⟩ := Bytes.holds_cons_iff.mp hidentifier
  have hcontentStart : idx + identifier.octets.length = idx + 1 + identifier.number.length := by
    rw [Identifier.length_octets]
    omega
  have hends := fragments_stop (Fragment.leadSize (isBits identifier)) hclosing
  rw [shortest_merged, ← hsize, ← hunused] at hfits ⊢
  obtain ⟨hbase, hfits⟩ := hfits.split
  obtain ⟨hrest, hfits⟩ := hfits.split
  obtain ⟨hoctets, hfits⟩ := hfits.split
  obtain ⟨hlead, hcontents⟩ := hfits.split
  rw [copyItem_header hlength hheader, hconstructed, if_pos rfl, hfind]
  dsimp only
  rw [hfragmentable, if_pos rfl, copyMerged, Sink.put_eq hbase, ok_bind, hcontentStart,
    Sink.copy_eq hnumber hrest, ok_bind, Sink.put_eq hoctets, ok_bind]
  dsimp only
  rw [show (identifier.first.base == Tag.bitString) = isBits identifier from rfl, put_lead hlead,
    ok_bind, contentStop_declared (by omega), Outcome.leaving_ok, ok_bind,
    show (if isBits identifier then 1 else 0) = Fragment.leadSize (isBits identifier) from rfl,
    Merged.copyFragments_join hsmall hvalid rfl (base_ne_of_isFragmentable hfragmentable)
    hfragments hends hcontents, Sink.append_append hlead, Sink.append_append hoctets,
    Sink.append_append hrest, Sink.append_append hbase]

theorem copyFrom_eq (input : Bytes) (ledger : Ledger) (idx : Nat) (sink : Sink) :
    copyFrom input ledger idx sink =
      if idx < input.length then
        copyItem input ledger idx sink >>= fun (next, sink) => copyFrom input ledger next sink
      else .ok sink := by
  rw [copyFrom]
  split
  · split
    · rename_i hcopy
      rw [hcopy]
      rfl
    · rename_i hcopy
      rw [hcopy]
      rfl
  · rfl

theorem copyFrom_item {sink' : Sink} (h : copyItem input ledger idx sink = .ok (next, sink')) :
    copyFrom input ledger idx sink = copyFrom input ledger next sink' := by
  have hlt : idx < input.length := by
    obtain ⟨tag, htag, _⟩ := bind_eq_ok_iff.mp h
    exact lt_length_of_fetch (Outcome.leaving_eq_ok_iff.mp htag)
  rw [copyFrom_eq, if_pos hlt, h]
  rfl

theorem copyFrom_closing (hinput : input.Holds idx (closing length)) :
    copyFrom input ledger idx sink = copyFrom input ledger (idx + (closing length).length) sink := by
  cases length with
  | some octets => rfl
  | none =>
    refine copyFrom_item ?_
    rw [copyItem, hinput.fetch, Outcome.leaving_ok, ok_bind,
      if_pos (show (0x00 : Tag) = Tag.endOfContent from rfl)]
    rfl

end DerTemplate.Canonical
