import DerTemplate.Proofs.Decoding.Item
import DerTemplate.Proofs.Header.Safety
import DerTemplate.Proofs.Schema.Position

namespace DerTemplate

namespace Oid

theorem safe_checkContent (content : Bytes) : (checkContent content).Safe fun _ => True := by
  have hgroups (atStart : Bool) : (checkGroups atStart content).Safe fun _ => True := by
    induction content generalizing atStart with
    | nil =>
      unfold checkGroups
      split <;> trivial
    | cons b rest ih =>
      unfold checkGroups
      split
      · trivial
      · exact ih _
  unfold checkContent
  split
  · trivial
  · exact hgroups true

theorem foldl_octets_le (content : Bytes) (n : Nat) :
    content.foldl (fun n b => n + b.toNat) n ≤ n + 255 * content.length := by
  induction content generalizing n with
  | nil => exact Nat.le_refl n
  | cons b rest ih =>
    have hb := b.toNat_lt
    have := ih (n + b.toNat)
    rw [List.foldl_cons, List.length_cons]
    omega

theorem safe_octetSum {content : Bytes} (h : content.length < 2 ^ 24) :
    (octetSum content).Safe fun _ => True := by
  have hsum := foldl_octets_le content 0
  unfold octetSum
  rw [if_pos (by omega)]
  trivial

theorem safe_verify (category : Category) (sum : Nat) (content : Bytes) :
    (category.verify sum content).Safe fun _ => True := by
  unfold Category.verify
  split <;> trivial

end Oid

namespace Decoding

open Schema

variable {options : Options} {schema : Schema} {input : Bytes} {entry : Entry} {walk : Walk}
variable {destination : Destination} {i first stop : Nat}

theorem safe_validate (schema : Schema) : schema.validate.Safe fun _ => True := by
  have hnesting (i : Nat) (entry : Entry) (before : Option Entry) :
      (checkNesting i entry before).Safe fun _ => True := by
    unfold checkNesting
    split <;> split <;> trivial
  have hgroup (i : Nat) (entry : Entry) : (checkGroup i entry).Safe fun _ => True := by
    unfold checkGroup
    split
    · trivial
    · split <;> trivial
  have hfrom (i : Nat) (before : Option Entry) : (checkFrom i before schema).Safe fun _ => True := by
    induction schema generalizing i before with
    | nil => trivial
    | cons entry rest ih =>
      unfold checkFrom
      split
      · trivial
      · exact (hnesting _ _ _).bind fun _ _ _ => (hgroup _ _).bind fun _ _ _ => ih _ _
  exact hfrom 0 none

theorem safe_ofContent (policy : IntegerPolicy) (tag : Tag) (raw : Bytes) :
    (Lead.ofContent policy tag raw).Safe fun lead => lead.size ≤ raw.length := by
  unfold Lead.ofContent
  split
  · exact Nat.zero_le _
  · split
    · refine (Content.meets_isPadded raw policy).safe.bind fun padded _ hpos => ?_
      cases padded
      · exact Nat.zero_le _
      · exact hpos
    · split
      · exact (Content.meets_unusedBitCount raw).safe.bind fun _ _ hpos => hpos
      · exact Nat.zero_le _

theorem safe_readSmall (item : Item) (width index : Nat) :
    (readSmall item width index).Safe fun _ => True := by
  unfold readSmall
  dsimp only
  generalize (if item.tag = Tag.boolean then 1 else width) = width
  split
  · trivial
  · split
    · trivial
    · exact (Content.meets_readUnsigned _ _).safe

theorem safe_readInteger (item : Item) (signed : Bool) (index : Nat) :
    (readInteger item signed index).Safe fun _ => True := by
  unfold readInteger
  split
  · trivial
  · split <;> trivial

theorem safe_readOid (options : Options) (category : Oid.Category) {item : Item}
    (h : item.content.length < 2 ^ 24) : (readOid options category item).Safe fun _ => True := by
  have hcontent : Outcome.Safe (if item.tag = Tag.objectIdentifier then Oid.checkContent item.content
      else .ok ()) fun _ => True := by
    split
    · exact Oid.safe_checkContent _
    · trivial
  refine hcontent.bind fun _ _ _ => (Oid.safe_octetSum h).bind fun sum _ _ => ?_
  have hverify : Outcome.Safe (if options.verifyOids then category.verify sum item.content
      else .ok ()) fun _ => True := by
    split
    · exact Oid.safe_verify _ _ _
    · trivial
  exact hverify.bind fun _ _ _ => trivial

theorem safe_readValue (options : Options) (destination : Destination) {item : Item}
    (h : item.content.length < 2 ^ 24) (index : Nat) :
    (readValue options destination item index).Safe fun _ => True := by
  cases destination with
  | none | content | choice => trivial
  | uint8 | uint16 | uint32 => exact (safe_readSmall _ _ _).map _
  | integer signed => exact (safe_readInteger _ _ _).map _
  | oid category => exact safe_readOid _ _ h
  | expect bytes | bounded capacity =>
    unfold readValue
    dsimp only
    split <;> trivial

theorem safe_readHeader (destination : Destination) (item : Item) (index : Nat) :
    (readHeader destination item index).Safe fun _ => True := by
  cases destination <;> trivial

theorem safe_fill (slot : Slot) (options : Options) (entry : Entry)
    (hinput : input.length < 2 ^ 24) (start bound : Nat) (tag : Tag) (index : Nat) :
    (slot.fill options entry input start bound tag index).outcome.Safe fun (_, item) =>
      start < item.contentStart ∧ item.contentStart ≤ item.stop ∧
        item.stop ≤ min bound input.length := by
  unfold Slot.fill
  simp only [Attempt.outcome_bind, Attempt.outcome_leaving]
  refine (Header.meets_readLength input (start + 1) bound).safe.bind fun (length, next) _ hlength => ?_
  dsimp only at hlength ⊢
  have hword : next + length < wordLimit := Nat.lt_trans (by omega) (show 2 ^ 24 < wordLimit by decide)
  refine (Word.meets_add hword).bind fun last _ hlast => ?_
  subst hlast
  refine (Bytes.meets_slice (by omega) (by omega)).bind fun raw _ hraw => ?_
  refine (safe_ofContent _ _ _).bind fun lead _ hlead => ?_
  refine (Word.meets_sub (by omega)).bind fun _ _ _ => ?_
  refine (Bytes.meets_slice (by omega) (by omega)).bind fun content _ hcontent => ?_
  have hvalue : Outcome.Safe (if entry.headerOnly then readHeader slot.destination
      ⟨tag, start, next + lead.size, next + length, lead, raw, content⟩ index
      else readValue options slot.destination
        ⟨tag, start, next + lead.size, next + length, lead, raw, content⟩ index) fun _ => True := by
    split
    · exact safe_readHeader _ _ _
    · exact safe_readValue _ _ (show content.length < 2 ^ 24 by omega) _
  refine hvalue.bind fun value _ _ => Outcome.meets_ok ?_
  dsimp only
  omega

structure Walk.Sized (walk : Walk) (schema : Schema) (first stop : Nat) : Prop where
  slots : walk.slots.length = schema.length
  ends : walk.ends.length = depthLimit + 1
  groups : walk.met.length = choiceGroupLimit + 1
  level : walk.level ≤ depthLimit
  regions : ∀ region ∈ walk.ends, region ≤ stop
  after : first ≤ walk.idx
  before : walk.idx ≤ stop

theorem safe_closeLevels {ends : List Nat} {level : Nat} (depth idx : Nat)
    (h : level < ends.length) : (closeLevels ends depth idx level).Safe fun _ => True := by
  induction level with
  | zero => trivial
  | succ level ih =>
    unfold closeLevels
    split
    · trivial
    · refine (meets_fetch h).bind fun region _ _ => ?_
      split
      · exact ih (Nat.lt_of_succ_lt h)
      · trivial

theorem safe_ascend (h : walk.Sized schema first stop) (depth : Nat) :
    (walk.ascend depth).Safe fun walk => walk.Sized schema first stop := by
  unfold Walk.ascend
  split
  · rename_i hdepth
    have hlevel := h.level
    have hends := h.ends
    refine (safe_closeLevels depth walk.idx (by omega)).bind fun _ _ _ => Outcome.meets_ok ?_
    exact { h with level := show depth ≤ depthLimit by omega }
  · exact h

theorem safe_setMet (h : walk.Sized schema first stop) {group : Option Nat}
    (hgroup : ∀ g ∈ group, g ≤ choiceGroupLimit) (found : Bool) :
    (walk.setMet group found).Safe fun walk => walk.Sized schema first stop := by
  have hgroups := h.groups
  cases group with
  | none => exact h
  | some g =>
    have hg := hgroup g rfl
    refine (meets_update (by omega) found).bind fun met _ hmet => Outcome.meets_ok ?_
    subst hmet
    exact { h with groups := by rw [List.length_set, hgroups] }

theorem safe_isMet (h : walk.Sized schema first stop) {group : Option Nat}
    (hgroup : ∀ g ∈ group, g ≤ choiceGroupLimit) : (walk.isMet group).Safe fun _ => True := by
  have hgroups := h.groups
  cases group with
  | none => trivial
  | some g =>
    have hg := hgroup g rfl
    exact (meets_fetch (by omega)).imp fun _ _ => trivial

theorem le_choiceGroupLimit (h : Bounded entry) : ∀ g ∈ entry.choiceGroup, g ≤ choiceGroupLimit :=
  fun g hg => (h.2 g (Entry.choiceGroup_eq_some.mp hg)).2

theorem safe_arrive (h : walk.Sized schema first stop) (hentry : Bounded entry) (i : Nat) :
    (walk.arrive schema i entry).Safe fun walk => walk.Sized schema first stop := by
  refine (safe_ascend h entry.depth).bind fun above _ habove => ?_
  split
  · exact safe_setMet habove (le_choiceGroupLimit hentry) false
  · exact habove

theorem safe_peek (h : walk.Sized schema first stop) (hstop : stop ≤ input.length) {depth : Nat}
    (hdepth : depth < depthLimit) : (walk.peek input depth).Safe fun _ => True := by
  have hends := h.ends
  refine (meets_fetch (by omega)).bind fun region _ hregion => ?_
  have hle : region ≤ stop := h.regions region (hregion ▸ List.getElem_mem _)
  split
  · exact (meets_fetch (by omega)).bind fun _ _ _ => trivial
  · trivial

theorem safe_judge (destination : Destination) (entry : Entry) (index idx : Nat) (found : Option Tag)
    (taken : Bool) : (judge destination entry index idx found taken).Safe fun _ => True := by
  have hotherwise : Outcome.Safe (if entry.presence = .required
      then refuse (missing destination entry index idx found) else .ok none : Outcome (Option Tag))
      fun _ => True := by
    split <;> trivial
  unfold judge
  cases found with
  | none => exact hotherwise
  | some tag =>
    cases taken with
    | true => exact hotherwise
    | false =>
      dsimp only
      rw [if_neg Bool.false_ne_true]
      split
      · trivial
      · split
        · trivial
        · exact hotherwise

theorem safe_pass (h : walk.Sized schema first stop) (hentry : Bounded entry)
    (hi : i < schema.length) :
    (walk.pass schema i entry).outcome.Safe fun walk => walk.Sized schema first stop := by
  have hmarked (next : Nat) :
      Walk.Sized { walk with slots := absentBetween walk.slots i next walk.idx } schema first stop :=
    { h with slots := by rw [absentBetween, List.length_mapIdx, h.slots] }
  have hlt : i < schema.subtreeEnd i := schema.lt_subtreeEnd i
  have hnext : schema.subtreeEnd i ≤ walk.slots.length := h.slots ▸ subtreeEnd_le hi
  unfold Walk.pass
  dsimp only
  rw [markAbsent_eq_ok_iff.mpr ⟨Nat.le_of_lt hlt, hnext, rfl⟩, Outcome.leaving_ok, ok_bind]
  simp only [Attempt.outcome_bind, Attempt.outcome_leaving]
  refine (safe_isMet h (le_choiceGroupLimit hentry)).bind fun found _ _ => ?_
  split
  · exact hmarked _
  · split
    · trivial
    · exact hmarked _

theorem safe_take (h : walk.Sized schema first stop) (hstop : stop ≤ input.length)
    (hinput : input.length < 2 ^ 24) (hentry : Bounded entry) (i : Nat) (slot : Slot) (tag : Tag) :
    (walk.take options input i entry slot tag).outcome.Safe fun walk =>
      walk.Sized schema first stop := by
  have hends := h.ends
  have hafter := h.after
  have hdepth := hentry.1
  unfold Walk.take
  rw [Attempt.outcome_bind, Attempt.outcome_leaving]
  refine (meets_fetch (by omega)).bind fun bound _ hbound => ?_
  have hle : bound ≤ stop := h.regions bound (hbound ▸ List.getElem_mem _)
  have hfill := safe_fill slot options entry hinput walk.idx bound tag i
  cases hfound : slot.fill options entry input walk.idx bound tag i with
  | error interrupted =>
    rw [hfound] at hfill
    obtain ⟨error, hfailure, _⟩ := hfill.refused rfl
    dsimp only
    rw [Attempt.outcome_error, hfailure]
    trivial
  | ok found =>
    obtain ⟨filled, item⟩ := found
    rw [hfound] at hfill
    obtain ⟨hstart, hcontent, hitem⟩ : walk.idx < item.contentStart ∧
      item.contentStart ≤ item.stop ∧ item.stop ≤ min bound input.length := hfill
    have hslots : (walk.slots.set i filled).length = schema.length := by
      rw [List.length_set, h.slots]
    simp only [Attempt.outcome_bind, Attempt.outcome_leaving]
    refine Outcome.Meets.bind ?_ fun taken _ (htaken : taken.Sized schema first stop) =>
      safe_setMet htaken (le_choiceGroupLimit hentry) true
    split
    · refine (meets_update (by omega) item.stop).bind fun ends _ hset => Outcome.meets_ok ?_
      subst hset
      refine ⟨hslots, ?_, h.groups, hdepth, fun region hregion => ?_, ?_, ?_⟩
      · rw [List.length_set, hends]
      -- only the region of the content is new
      · rcases List.mem_or_eq_of_mem_set hregion with hregion | rfl
        · exact h.regions region hregion
        · omega
      · dsimp only
        omega
      · dsimp only
        omega
    · refine Outcome.meets_ok ⟨hslots, hends, h.groups, Nat.le_of_lt hdepth, h.regions, ?_, ?_⟩
      · dsimp only
        omega
      · dsimp only
        omega

theorem safe_visit (h : walk.Sized schema first stop) (hstop : stop ≤ input.length)
    (hinput : input.length < 2 ^ 24) (hentry : Bounded entry) (hi : i < schema.length) :
    (walk.visit options schema input i entry).outcome.Safe fun (walk, _) =>
      walk.Sized schema first stop := by
  unfold Walk.visit
  simp only [Attempt.outcome_bind, Attempt.outcome_leaving]
  refine (safe_arrive h hentry i).bind fun arrived _ harrived => ?_
  refine (meets_fetch (by rw [harrived.slots]; exact hi)).bind fun slot _ _ => ?_
  refine (safe_peek harrived hstop hentry.1).bind fun found _ _ => ?_
  refine (safe_isMet harrived (le_choiceGroupLimit hentry)).bind fun taken _ _ => ?_
  refine (safe_judge _ _ _ _ _ _).bind fun judged _ _ => ?_
  cases judged with
  | none =>
    dsimp only
    rw [Attempt.outcome_bind]
    exact (safe_pass harrived hentry hi).bind fun _ _ hpassed => hpassed
  | some tag =>
    dsimp only
    rw [Attempt.outcome_bind]
    exact (safe_take harrived hstop hinput hentry i slot tag).bind fun _ _ htaken => htaken

theorem safe_run (hentries : ∀ entry ∈ schema, Bounded entry) (hstop : stop ≤ input.length)
    (hinput : input.length < 2 ^ 24) (h : walk.Sized schema first stop) (i : Nat) :
    (walk.run options schema input i).outcome.Safe fun walk => walk.Sized schema first stop := by
  fun_induction walk.run options schema input i with
  | case1 walk i hi ihFound ihAbsent =>
    rw [Attempt.outcome_bind]
    refine (safe_visit h hstop hinput (hentries _ (List.getElem_mem hi)) hi).bind
      fun (next, found) _ hnext => ?_
    cases found with
    | true => exact ihFound next hnext
    | false => exact ihAbsent next hnext
  | case2 walk i hi => exact h

theorem safe_finish (h : walk.Sized schema first stop) (complete : Bool) :
    (walk.finish complete stop).Safe fun _ => True := by
  have hlevel := h.level
  have hends := h.ends
  unfold Walk.finish
  split
  · refine (safe_closeLevels 0 walk.idx (by omega)).bind fun _ _ _ => ?_
    split <;> trivial
  · trivial

theorem sized_begin {slots : List Slot} {cursor : Nat} (hslots : slots.length = schema.length)
    (hcursor : cursor ≤ stop) : (Walk.begin slots cursor stop).Sized schema cursor stop where
  slots := hslots
  ends := List.length_replicate
  groups := List.length_replicate
  level := Nat.zero_le _
  regions _ hregion := Nat.le_of_eq (List.eq_of_mem_replicate hregion)
  after := Nat.le_refl cursor
  before := hcursor

theorem decode_safe (session : Session) (options : Options) (schema : Schema) (input : Bytes)
    (complete : Bool) (maxIndex : Nat) (hinput : input.length < 2 ^ 24) :
    match session.decode options schema input complete maxIndex with
    | .ok done => session.cursor ≤ done.cursor ∧ done.cursor ≤ min maxIndex input.length
    | .error stop => (∃ error, stop.failure = .refused error) ∧ stop.left.cursor = session.cursor := by
  have hchecked : (session.check schema (min maxIndex input.length)).Safe fun _ =>
      (∀ entry ∈ schema, Bounded entry) ∧ session.slots.length = schema.length ∧
        session.cursor ≤ min maxIndex input.length := by
    refine (safe_validate schema).bind fun _ hvalid _ => ?_
    split
    · trivial
    · split
      · trivial
      · exact Outcome.meets_ok ⟨bounded_of_validate hvalid, by omega, by omega⟩
  have hstop : min maxIndex input.length ≤ input.length := Nat.min_le_right _ _
  unfold Session.decode
  dsimp only
  generalize min maxIndex input.length = stop at hchecked hstop ⊢
  cases hcheck : session.check schema stop with
  | error failure =>
    obtain ⟨error, hfailure, _⟩ := hchecked.refused hcheck
    exact ⟨⟨error, hfailure⟩, rfl⟩
  | ok _ =>
    obtain ⟨hentries, hlength, hcursor⟩ := hchecked.of_ok hcheck
    have hbegin : (Walk.begin (session.slots.map Slot.clear) session.cursor stop).Sized schema
      session.cursor stop := sized_begin (by rw [List.length_map, hlength]) hcursor
    have hrun : ((Walk.begin (session.slots.map Slot.clear) session.cursor stop).run options schema
        input 0).outcome.Safe fun walk => walk.Sized schema session.cursor stop :=
      safe_run hentries hstop hinput hbegin 0
    rw [Outcome.leaving_ok, ok_bind]
    cases hwalk : (Walk.begin (session.slots.map Slot.clear) session.cursor stop).run options schema
        input 0 with
    | error interrupted =>
      rw [hwalk] at hrun
      obtain ⟨error, hfailure, _⟩ := hrun.refused rfl
      exact ⟨⟨error, hfailure⟩, rfl⟩
    | ok walk =>
      rw [hwalk] at hrun
      have hsized : walk.Sized schema session.cursor stop := hrun
      dsimp only
      cases hfinish : walk.finish complete stop with
      | error failure =>
        obtain ⟨error, hfailure, _⟩ := (safe_finish hsized complete).refused hfinish
        exact ⟨⟨error, hfailure⟩, rfl⟩
      | ok _ => exact ⟨hsized.after, hsized.before⟩

theorem decode_safe_overlong :
    ([0x02, 0x88, 0x7F, 0xFF, 0xFF, 0xFF, 0xFF, 0xFF, 0xFF, 0xFF] : Bytes).length < 2 ^ 24 ∧
      match Session.decode ⟨0, Slot.forSchema [Entry.leaf 0 Tag.integer]⟩ .strict
        [Entry.leaf 0 Tag.integer]
        [0x02, 0x88, 0x7F, 0xFF, 0xFF, 0xFF, 0xFF, 0xFF, 0xFF, 0xFF] true (wordLimit - 1) with
      | .ok done => 0 ≤ done.cursor ∧ done.cursor ≤ 10
      | .error stop => (∃ error, stop.failure = .refused error) ∧ stop.left.cursor = 0 :=
  ⟨by decide, decode_safe ⟨0, Slot.forSchema [Entry.leaf 0 Tag.integer]⟩ .strict
    [Entry.leaf 0 Tag.integer] [0x02, 0x88, 0x7F, 0xFF, 0xFF, 0xFF, 0xFF, 0xFF, 0xFF, 0xFF] true
    (wordLimit - 1) (by decide)⟩

end Decoding

end DerTemplate
