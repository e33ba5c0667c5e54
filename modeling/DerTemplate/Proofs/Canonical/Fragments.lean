import DerTemplate.Proofs.Canonical.Frames

namespace DerTemplate

theorem Content.of_unusedBitCount {content : Bytes} {unused : UInt8}
    (h : unusedBitCount content = .ok unused) : ∃ rest, content = unused :: rest := by
  unfold unusedBitCount at h
  split at h
  · cases h
  · rename_i first rest
    split at h
    · cases h
    · split at h
      · split at h
        · rename_i hzero
          cases h
          exact ⟨rest, by rw [hzero]⟩
        · cases h
      · obtain ⟨mask, _, h⟩ := bind_eq_ok_iff.mp h
        split at h
        · cases h
          exact ⟨rest, rfl⟩
        · cases h

namespace Canonical

open Header (IsLength)

variable {input : Bytes} {idx limit start : Nat}

theorem base_ne_of_isFragmentable {tag : Tag} (h : tag.isFragmentable = true) :
    tag.base ≠ Tag.endOfContent := by
  rw [Tag.isFragmentable, Bool.and_eq_true] at h
  exact bne_iff_ne.mp h.2

theorem atEndOfContent_other {first : UInt8} {rest : Bytes} (hinput : input.Holds idx (first :: rest))
    (hfirst : first ≠ Tag.endOfContent) : atEndOfContent input idx limit = .ok false := by
  rw [atEndOfContent, hinput.fetch, ok_bind, if_pos hfirst]
  rfl

theorem atEndOfContent_zeros (hinput : input.Holds idx [0x00, 0x00]) (hlimit : idx + 2 ≤ limit) :
    atEndOfContent input idx limit = .ok true := by
  obtain ⟨_, hsecond⟩ := Bytes.holds_cons_iff.mp hinput
  rw [atEndOfContent, hinput.fetch, ok_bind, if_neg (fun h => h rfl), if_pos (by omega),
    hsecond.fetch]
  rfl

theorem readContentLength_definite {octets : Bytes} {n : Nat} (h : IsLength octets n)
    (hinput : input.Holds idx octets) (hlimit : idx + octets.length + n ≤ limit) :
    readContentLength input idx limit start = .ok (some n, idx + octets.length) := by
  rw [readContentLength, Header.readAnyLength_isLength h hinput (by omega), ok_bind]
  dsimp only
  rw [Word.sub, if_pos (by omega), ok_bind, if_neg (by omega)]
  rfl

theorem readContentLength_indefinite (hinput : input.Holds idx [0x80]) (hlimit : idx < limit) :
    readContentLength input idx limit start = .ok (none, idx + 1) := by
  rw [readContentLength, Header.readAnyLength_indefinite hinput hlimit]
  rfl

namespace Ledger

theorem add_add (ledger : Ledger) (a b : Nat) :
    (ledger.add a true >>= fun ledger => ledger.add b true) = ledger.add (a + b) true := by
  obtain ⟨records, opened, indefinite⟩ := ledger
  cases opened with
  | nil => rfl
  | cons item around =>
    unfold add
    dsimp only
    by_cases ha : item.contentLength + a < wordLimit
    · rw [if_pos ha, ok_bind]
      dsimp only
      by_cases hab : item.contentLength + (a + b) < wordLimit
      · rw [if_pos hab, if_pos (by omega)]
        simp [Nat.add_assoc]
      · rw [if_neg hab, if_neg (by omega)]
    · rw [if_neg ha, if_neg (by omega)]
      rfl

def addContents (bits : Bool) : List Fragment → Ledger → Outcome Ledger
  | [], ledger => .ok ledger
  | fragment :: rest, ledger =>
    ledger.add (fragment.content.length - Fragment.leadSize bits) true >>= addContents bits rest

theorem addContents_cons (bits : Bool) (fragment : Fragment) (rest : List Fragment)
    (ledger : Ledger) :
    addContents bits (fragment :: rest) ledger =
      ledger.add (Fragment.contents bits (fragment :: rest)).length true := by
  induction rest generalizing fragment ledger with
  | nil =>
    simp only [addContents, Fragment.contents, List.flatMap_cons, List.flatMap_nil,
      List.append_nil, List.length_drop]
    cases ledger.add (fragment.content.length - Fragment.leadSize bits) true <;> rfl
  | cons next rest ih =>
    have hnext : addContents bits (next :: rest) = fun ledger =>
      ledger.add (Fragment.contents bits (next :: rest)).length true := funext (ih next)
    rw [addContents, hnext, add_add]
    simp only [Fragment.contents, List.flatMap_cons, List.length_append, List.length_drop]

theorem addContents_merged {ledger : Ledger} {item : OpenItem} {around : List OpenItem}
    (hopened : ledger.opened = item :: around) (hfresh : item.contentLength = 0) (bits : Bool)
    (fragments : List Fragment) :
    (addContents bits fragments ledger >>= fun ledger =>
      (if bits then ledger.add 1 true else .ok ledger) >>= fun ledger =>
        .ok (ledger.markMerged (Fragment.unused bits fragments))) =
      bookMerged bits fragments ledger := by
  rw [bookMerged, Fragment.length_merged, ← bind_assoc]
  cases fragments with
  | nil =>
    cases bits with
    | true => rfl
    | false =>
      have hadd : ledger.add 0 true = .ok (ledger.grown 0 true) := by
        rw [add, grown, hopened]
        exact if_pos (by rw [hfresh]; decide)
      have hmarked : (ledger.grown 0 true).markMerged 0 = ledger.markMerged 0 := by
        rw [grown, markMerged, markMerged, hopened]
        rfl
      refine Eq.trans ?_ (congrArg (· >>= fun ledger => .ok (ledger.markMerged 0)) hadd).symm
      exact congrArg Except.ok hmarked.symm
  | cons fragment rest =>
    rw [addContents_cons]
    cases bits with
    | true =>
      simp only [if_true]
      rw [add_add, Nat.add_comm]
      rfl
    | false =>
      simp only [Bool.false_eq_true, if_false]
      rw [show Fragment.leadSize false = 0 from rfl, Nat.zero_add]
      cases ledger.add (Fragment.contents false (fragment :: rest)).length true <;> rfl

end Ledger

namespace Fragmented

variable {string : Fragmented}

theorem readFragments_eq (string : Fragmented) (input : Bytes) (idx : Nat) (unused : UInt8)
    (ledger : Ledger) :
    string.readFragments input idx unused ledger = (string.endAt input idx >>= fun found =>
      match found with
      | some next => .ok (next, unused, ledger)
      | none => string.readFragment input idx unused ledger >>= fun (next, unused, ledger) =>
        string.readFragments input next unused ledger) := by
  rw [readFragments]
  cases hend : string.endAt input idx with
  | error failure => rfl
  | ok found =>
    cases found with
    | some next => rfl
    | none =>
      rw [ok_bind]
      dsimp only
      split
      · rename_i hread
        rw [hread]
        rfl
      · rename_i hread
        rw [hread]
        rfl

def Ends (string : Fragmented) (input : Bytes) (stop next : Nat) : Prop :=
  (string.stop = some stop ∧ next = stop) ∨
    (string.stop = none ∧ input.Holds stop [0x00, 0x00] ∧ stop + 2 ≤ string.bound ∧
      next = stop + 2)

theorem le_limit {stop next : Nat} (h : string.Ends input stop next) : stop ≤ string.limit := by
  unfold limit
  rcases h with ⟨hstop, _⟩ | ⟨hstop, _, hbound, _⟩
  · rw [hstop]
    exact Nat.le_refl _
  · rw [hstop]
    exact Nat.le_of_add_right_le hbound

theorem endAt_stop {stop next : Nat} (h : string.Ends input stop next) :
    string.endAt input stop = .ok (some next) := by
  unfold endAt
  rcases h with ⟨hstop, rfl⟩ | ⟨hstop, hzeros, hbound, rfl⟩
  · rw [hstop]
    exact if_pos rfl
  · have hlimit : string.limit = string.bound := by rw [limit, hstop]; rfl
    rw [hstop, hlimit]
    dsimp only
    rw [if_neg (by omega), atEndOfContent_zeros hzeros hbound]
    rfl

theorem endAt_fragment {stop next : Nat} (h : string.Ends input stop next) {first : UInt8}
    {rest : Bytes} (hinput : input.Holds idx (first :: rest)) (hfirst : first ≠ Tag.endOfContent)
    (hlt : idx < stop) : string.endAt input idx = .ok none := by
  have hlimit := le_limit h
  unfold endAt
  rcases h with ⟨hstop, _⟩ | ⟨hstop, _⟩
  · rw [hstop]
    dsimp only
    rw [if_neg (by omega), if_neg (by omega)]
  · rw [hstop]
    dsimp only
    rw [if_neg (by omega), atEndOfContent_other hinput hfirst]
    rfl

def unusedAfter (bits : Bool) (unused : UInt8) (fragments : List Fragment) : UInt8 :=
  if bits then fragments.getLast?.elim unused fun fragment => fragment.content.headD 0 else unused

theorem unusedAfter_single {unused found : UInt8} {fragment : Fragment}
    (h : Content.unusedBitCount fragment.content = .ok found) :
    unusedAfter true unused [fragment] = found := by
  obtain ⟨rest, hhead⟩ := Content.of_unusedBitCount h
  rw [unusedAfter, if_pos rfl, List.getLast?_singleton, Option.elim_some, hhead, List.headD_cons]

theorem unusedAfter_cons (bits : Bool) (unused : UInt8) (fragment : Fragment)
    (rest : List Fragment) :
    unusedAfter bits (unusedAfter bits unused [fragment]) rest =
      unusedAfter bits unused (fragment :: rest) := by
  cases bits with
  | false => rfl
  | true =>
    cases rest with
    | nil => rfl
    | cons next rest =>
      simp only [unusedAfter, if_true, List.getLast?_cons_cons]
      rw [List.getLast?_eq_some_getLast (List.cons_ne_nil next rest)]
      rfl

theorem addFragment_eq (string : Fragmented) {fragment : Fragment} {rest : List Fragment}
    (hvalid : Fragment.Valid string.isBits (fragment :: rest)) {unused : UInt8}
    (hunused : string.isBits = true → unused = 0) (start : Nat) (ledger : Ledger) :
    string.addFragment fragment.content start unused ledger =
      (ledger.add (fragment.content.length - Fragment.leadSize string.isBits) true >>= fun ledger =>
        .ok (unusedAfter string.isBits unused [fragment], ledger)) := by
  obtain ⟨_, hcontent, _⟩ := hvalid
  unfold addFragment
  cases hbits : string.isBits with
  | false => rfl
  | true =>
    obtain ⟨found, hfound, _⟩ := hcontent hbits
    have hafter : unusedAfter true unused [fragment] = found := unusedAfter_single hfound
    obtain ⟨rest, hhead⟩ := Content.of_unusedBitCount hfound
    rw [if_pos rfl, if_neg (fun h => h (hunused hbits)), hfound, ok_bind, Word.sub,
      if_pos (by rw [hhead]; simp), ok_bind, hafter]
    rfl

theorem readFragments_ahead {fragments : List Fragment} {idx stop next : Nat} {unused : UInt8}
    (ledger : Ledger) (hvalid : Fragment.Valid string.isBits fragments)
    (htag : string.tag.base ≠ Tag.endOfContent)
    (hinput : input.Holds idx (Fragment.join string.tag.base fragments))
    (hstop : idx + (Fragment.join string.tag.base fragments).length ≤ stop)
    (hend : string.Ends input stop next)
    (hunused : string.isBits = true → fragments ≠ [] → unused = 0) :
    string.readFragments input idx unused ledger =
      (Ledger.addContents string.isBits fragments ledger >>= fun ledger =>
        string.readFragments input (idx + (Fragment.join string.tag.base fragments).length)
          (unusedAfter string.isBits unused fragments) ledger) := by
  induction fragments generalizing idx unused ledger with
  | nil =>
    unfold unusedAfter
    cases string.isBits <;> rfl
  | cons fragment rest ih =>
    have hjoin : Fragment.join string.tag.base (fragment :: rest) =
      string.tag.base :: (fragment.length ++ fragment.content) ++
        Fragment.join string.tag.base rest := rfl
    have hlengths : (Fragment.join string.tag.base (fragment :: rest)).length =
        1 + fragment.length.length + fragment.content.length +
          (Fragment.join string.tag.base rest).length := by
      rw [hjoin, List.length_append, List.length_cons, List.length_append]
      omega
    rw [hjoin] at hinput
    obtain ⟨hfragment, hrest⟩ := Bytes.holds_append_iff.mp hinput
    obtain ⟨_, hbehind⟩ := Bytes.holds_cons_iff.mp hfragment
    obtain ⟨hoctets, hcontent⟩ := Bytes.holds_append_iff.mp hbehind
    have hlimit := le_limit hend
    have hlength : readContentLength input (idx + 1) string.limit idx =
        .ok (some fragment.content.length, idx + 1 + fragment.length.length) :=
      readContentLength_definite hvalid.1 hoctets (by omega)
    have hread : string.readFragment input idx unused ledger =
        (ledger.add (fragment.content.length - Fragment.leadSize string.isBits) true >>=
          fun ledger => .ok (idx + 1 + fragment.length.length + fragment.content.length,
            unusedAfter string.isBits unused [fragment], ledger)) := by
      rw [readFragment, hfragment.fetch, ok_bind, if_neg (fun h => h rfl), hlength, ok_bind]
      dsimp only
      rw [hcontent.slice, ok_bind, addFragment_eq string hvalid
        (fun hbits => hunused hbits (List.cons_ne_nil _ _)), bind_assoc]
      rfl
    rw [readFragments_eq, endAt_fragment hend hfragment htag (by omega), ok_bind]
    dsimp only
    rw [hread, Ledger.addContents, bind_assoc, bind_assoc]
    refine bind_congr_ok fun ledger' _ => ?_
    rw [ok_bind]
    dsimp only
    rw [ih ledger' hvalid.2.2 ?_ ?_ ?_, unusedAfter_cons, hlengths]
    · congr 1
      funext ledger
      congr 1
      omega
    · rw [List.length_cons, List.length_append] at hrest
      rwa [Nat.add_assoc, Nat.add_assoc, Nat.add_comm 1]
    · omega
    · intro hbits hne
      obtain ⟨found, hfound, hzero⟩ := hvalid.2.1 hbits
      rw [hbits, unusedAfter_single hfound, hzero hne]

theorem readFragments_join {fragments : List Fragment} {idx stop next : Nat} {unused : UInt8}
    (ledger : Ledger) (hvalid : Fragment.Valid string.isBits fragments)
    (htag : string.tag.base ≠ Tag.endOfContent)
    (hinput : input.Holds idx (Fragment.join string.tag.base fragments))
    (hstop : stop = idx + (Fragment.join string.tag.base fragments).length)
    (hend : string.Ends input stop next)
    (hunused : string.isBits = true → fragments ≠ [] → unused = 0) :
    string.readFragments input idx unused ledger =
      (Ledger.addContents string.isBits fragments ledger >>= fun ledger =>
        .ok (next, unusedAfter string.isBits unused fragments, ledger)) := by
  rw [readFragments_ahead ledger hvalid htag hinput (Nat.le_of_eq hstop.symm) hend hunused]
  refine bind_congr_ok fun ledger' _ => ?_
  rw [← hstop, readFragments_eq, endAt_stop hend]
  rfl

end Fragmented

end Canonical

end DerTemplate
