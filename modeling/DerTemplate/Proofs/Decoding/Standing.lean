import DerTemplate.Proofs.Decoding.Visit

namespace DerTemplate.Decoding

open Schema

variable {options : Options} {schema : Schema} {input : Bytes} {complete : Bool} {window : Nat}

def Walk.conclude (walk : Walk) (options : Options) (schema : Schema) (input : Bytes)
    (complete : Bool) (window i : Nat) : Outcome (List Slot × Nat) := do
  let walk ← Attempt.outcome (walk.run options schema input i)
  walk.finish complete window
  return (walk.slots, walk.idx)

theorem conclude_visit {walk : Walk} {i : Nat} {entry : Entry} (h : schema[i]? = some entry) :
    walk.conclude options schema input complete window i =
      (Attempt.outcome (walk.visit options schema input i entry) >>= fun visited =>
        visited.1.conclude options schema input complete window
          (if visited.2 then i + 1 else schema.subtreeEnd i)) := by
  obtain ⟨hlt, hget⟩ := List.getElem?_eq_some_iff.mp h
  rw [Walk.conclude, Walk.run, dif_pos hlt, hget, Attempt.outcome_bind]
  cases Attempt.outcome (walk.visit options schema input i entry) with
  | error failure => rfl
  | ok visited =>
    obtain ⟨next, found⟩ := visited
    cases found <;> rfl

theorem conclude_end {walk : Walk} {i : Nat} (h : schema.length ≤ i) :
    walk.conclude options schema input complete window i =
      (walk.finish complete window >>= fun _ => .ok (walk.slots, walk.idx)) := by
  rw [Walk.conclude, Walk.run, dif_neg (Nat.not_lt.mpr h)]
  rfl

theorem closeLevels_self (ends : List Nat) (depth idx : Nat) :
    closeLevels ends depth idx depth = .ok () := by
  cases depth with
  | zero => rfl
  | succ depth => rw [closeLevels, if_pos (Nat.lt_succ_self depth)]

theorem closeLevels_succ {ends : List Nat} {depth level region : Nat} (idx : Nat)
    (hdepth : depth ≤ level) (hregion : ends[level + 1]? = some region) :
    closeLevels ends depth idx (level + 1) =
      (checkEnd true region idx >>= fun _ => closeLevels ends depth idx level) := by
  rw [closeLevels, if_neg (Nat.not_lt.mpr hdepth), fetch_eq_ok_iff.mpr hregion, ok_bind, checkEnd]
  by_cases hidx : idx = region
  · rw [if_pos hidx, if_neg (fun h => h.2 hidx), ok_bind]
  · rw [if_neg hidx, if_pos ⟨rfl, hidx⟩]
    rfl

theorem ascend_settle {walk : Walk} {depth level region : Nat} (hlevel : walk.level = level + 1)
    (hdepth : depth ≤ level) (hregion : walk.ends[level + 1]? = some region) :
    walk.ascend depth =
      (checkEnd true region walk.idx >>= fun _ =>
        ({ walk with level := level } : Walk).ascend depth) := by
  rw [Walk.ascend, if_pos (by omega), hlevel, closeLevels_succ walk.idx hdepth hregion]
  cases checkEnd true region walk.idx with
  | error failure => rfl
  | ok _ =>
    rw [ok_bind, ok_bind, Walk.ascend]
    split
    · rfl
    · obtain rfl : depth = level := by
        rename_i h
        exact Nat.le_antisymm hdepth (Nat.not_lt.mp h)
      rw [closeLevels_self]
      rfl

theorem conclude_settle {walk : Walk} {i level region : Nat} (hlevel : walk.level = level + 1)
    (hregion : walk.ends[level + 1]? = some region)
    (hnext : ∀ entry ∈ schema[i]?, entry.depth ≤ level) :
    walk.conclude options schema input complete window i =
      (checkEnd (complete || decide (i < schema.length)) region walk.idx >>= fun _ =>
        ({ walk with level := level } : Walk).conclude options schema input complete window i) := by
  cases hentry : schema[i]? with
  | some entry =>
    have hlt : i < schema.length := (List.getElem?_eq_some_iff.mp hentry).1
    rw [conclude_visit hentry, conclude_visit hentry, Walk.visit, Walk.visit, Walk.arrive,
      Walk.arrive, ascend_settle hlevel (hnext entry hentry) hregion, decide_eq_true hlt,
      Bool.or_true]
    cases checkEnd true region walk.idx <;> rfl
  | none =>
    have hle : schema.length ≤ i := List.getElem?_eq_none_iff.mp hentry
    rw [conclude_end hle, conclude_end hle, Walk.finish, Walk.finish,
      decide_eq_false (Nat.not_lt.mpr hle), Bool.or_false]
    cases complete with
    | false => rfl
    | true =>
      rw [if_pos rfl, if_pos rfl, hlevel, closeLevels_succ walk.idx (Nat.zero_le level) hregion]
      cases checkEnd true region walk.idx <;> rfl

/-- The walk stands before a root at `depth`, in a region that ends at `stop`. The sibling before has
the presence rule `before`, and `met` is its choice group if its run has its member. -/
structure Walk.Stands (walk : Walk) (input : Bytes) (depth stop : Nat) (before : Option Presence)
    (met : Option Nat) : Prop where
  level : walk.level = depth
  region : walk.ends[depth]? = some stop
  within : stop ≤ input.length
  ends : walk.ends.length = depthLimit + 1
  groups : walk.met.length = choiceGroupLimit + 1
  member : ∀ g, met = some g → before = some (.choice g)
  run : ∀ g, before = some (.choice g) → walk.met[g]? = some (decide (met = some g))

structure Walk.Resumes (walk : Walk) (depth : Nat) (first : Option Presence) (later : Walk) :
    Prop where
  level : later.level = depth
  ends : later.ends.length = walk.ends.length
  groups : later.met.length = walk.met.length
  stop : ∀ j ≤ depth, later.ends[j]? = walk.ends[j]?
  met : ∀ g, walk.met[g]? = some true ∨ first = some (.choice g) → later.met[g]? = some true

namespace Walk.Stands

variable {walk : Walk} {pre rest : List Entry} {entry : Entry} {depth stop g : Nat}
variable {met : Option Nat}

theorem facing (h : walk.Stands input depth stop (siblingBefore depth pre) met)
    (hdepth : entry.depth = depth) (hentry : Bounded entry) : walk.Facing entry stop := by
  obtain ⟨hlimit, hgroup⟩ := hentry
  refine ⟨hdepth ▸ h.level, hdepth ▸ h.region, ?_, fun g hg => ?_⟩
  · rw [h.ends]
    omega
  · rw [h.groups]
    have := (hgroup g (Entry.choiceGroup_eq_some.mp hg)).2
    omega

theorem taken_eq (h : walk.Stands input depth stop (siblingBefore depth pre) met)
    (hdepth : entry.depth = depth) (hentry : Bounded entry) :
    ∀ g ∈ entry.choiceGroup,
      (walk.arrivedMet (pre ++ entry :: rest) pre.length entry)[g]? =
        some (met.isSome && met == entry.choiceGroup) := by
  intro g hg
  have hgroup : entry.choiceGroup = some g := hg
  have hpresence : entry.presence = .choice g := Entry.choiceGroup_eq_some.mp hg
  have hlt : g < walk.met.length := (h.facing hdepth hentry).group g hg
  rw [Walk.arrivedMet, startsRun_append, hgroup, hpresence, hdepth]
  by_cases hbefore : siblingBefore depth pre = some (.choice g)
  · rw [if_neg (by simp [hbefore]), h.run g hbefore]
    cases met with
    | none => rfl
    | some n => simp [Bool.beq_eq_decide_eq]
  · rw [if_pos (by simpa [bne] using hbefore), getElem_markMet hlt]
    cases met with
    | none => rfl
    | some n =>
      have hne : n ≠ g := by
        rintro rfl
        exact hbefore (h.member n rfl)
      simp [hne]

theorem arrivedMet_ne (walk : Walk) (schema : Schema) (i : Nat)
    (hg : entry.presence ≠ .choice g) : (walk.arrivedMet schema i entry)[g]? = walk.met[g]? := by
  unfold Walk.arrivedMet
  split
  · exact getElem_markMet_ne (fun h => hg (Entry.choiceGroup_eq_some.mp h)) false
  · rfl

end Walk.Stands

theorem length_arrivedMet (walk : Walk) (schema : Schema) (i : Nat) (entry : Entry) :
    (walk.arrivedMet schema i entry).length = walk.met.length := by
  unfold Walk.arrivedMet
  split <;> simp

theorem absentBetween_append (pre mid post : List Slot) (idx : Nat) :
    absentBetween (pre ++ (mid ++ post)) pre.length (pre.length + mid.length) idx =
      pre ++ (mid.map (fun slot => slot.markAbsent idx) ++ post) := by
  have hpre : pre.mapIdx (fun j slot =>
      if pre.length ≤ j ∧ j < pre.length + mid.length then slot.markAbsent idx else slot) = pre := by
    refine List.ext_getElem (by simp) fun j hj hj' => ?_
    rw [List.getElem_mapIdx, if_neg (by omega)]
  have hmid : mid.mapIdx (fun j slot =>
      if pre.length ≤ j + pre.length ∧ j + pre.length < pre.length + mid.length then
        slot.markAbsent idx else slot) = mid.map fun slot => slot.markAbsent idx := by
    refine List.ext_getElem (by simp) fun j hj hj' => ?_
    rw [List.length_mapIdx] at hj
    rw [List.getElem_mapIdx, if_pos ⟨by omega, by omega⟩, List.getElem_map]
  have hpost : post.mapIdx (fun j slot =>
      if pre.length ≤ j + mid.length + pre.length ∧
          j + mid.length + pre.length < pre.length + mid.length then
        slot.markAbsent idx else slot) = post := by
    refine List.ext_getElem (by simp) fun j hj hj' => ?_
    rw [List.getElem_mapIdx, if_neg (by omega)]
  rw [absentBetween, List.mapIdx_append, List.mapIdx_append, hpre, hmid, hpost]

theorem stop_le_of_readItem {entry : Entry} {destination : Destination} {start bound index : Nat}
    {tag : Tag} {slot : Slot} {item : Item}
    (h : readItem options entry destination input start bound tag index = .ok (slot, item)) :
    item.stop ≤ input.length := by
  obtain ⟨⟨length, next⟩, hlength, h⟩ := bind_eq_ok_iff.mp h
  obtain ⟨lead, _, h⟩ := bind_eq_ok_iff.mp h
  obtain ⟨value, _, h⟩ := bind_eq_ok_iff.mp h
  cases h
  have := (Header.readLength_bounds hlength).2
  exact Nat.le_trans this (Nat.min_le_right _ _)

section Step

variable {walk later last : Walk} {pre rest : List Entry} {entry : Entry} {depth stop : Nat}
variable {met : Option Nat} {first : Option Presence} {slot : Slot} {item : Item}

theorem stands_passed (h : walk.Stands input depth stop (siblingBefore depth pre) met)
    (hdepth : entry.depth = depth) (hentry : Bounded entry) (slots : List Slot) :
    ({ walk.arrived (pre ++ entry :: rest) pre.length entry with slots := slots } : Walk).Stands
      input depth stop (some entry.presence)
      (if met.isSome && met == entry.choiceGroup then met else none) := by
  refine ⟨h.level, h.region, h.within, h.ends, (length_arrivedMet ..).trans h.groups, ?_, ?_⟩
  · intro g hg
    split at hg
    · rename_i htaken
      have hmet : met = entry.choiceGroup := by simpa [hg] using htaken
      exact congrArg some (Entry.choiceGroup_eq_some.mp (hmet ▸ hg))
    · cases hg
  · intro g hg
    have hgroup : entry.choiceGroup = some g := Entry.choiceGroup_eq_some.mpr (Option.some.inj hg)
    refine (h.taken_eq hdepth hentry g hgroup).trans ?_
    rw [hgroup]
    split
    · rename_i htaken
      have hmet : met = some g := by
        have := (Bool.and_eq_true_iff.mp htaken).2
        simpa using this
      simp [hmet]
    · rename_i htaken
      simpa using htaken

theorem resumes_passed (h : walk.Stands input depth stop (siblingBefore depth pre) met)
    (hdepth : entry.depth = depth) (hentry : Bounded entry) {slots : List Slot}
    (hrun : checkRun entry first (met.isSome && met == entry.choiceGroup) = .ok ())
    (hlater : ({ walk.arrived (pre ++ entry :: rest) pre.length entry with
      slots := slots } : Walk).Resumes depth first later) :
    walk.Resumes depth (some entry.presence) later := by
  refine ⟨hlater.level, hlater.ends, hlater.groups.trans (length_arrivedMet ..), hlater.stop, ?_⟩
  intro g hg
  apply hlater.met
  by_cases hpresence : entry.presence = .choice g
  · have hgroup : entry.choiceGroup = some g := Entry.choiceGroup_eq_some.mpr hpresence
    unfold checkRun at hrun
    rw [hpresence] at hrun
    dsimp only at hrun
    split at hrun
    · cases hrun
    · rename_i hmember
      by_cases hfirst : first = some (.choice g)
      · exact .inr hfirst
      · refine .inl ((h.taken_eq hdepth hentry g hgroup).trans ?_)
        simpa [hfirst, Option.isSome_iff_ne_none] using hmember
  · rcases hg with hg | hg
    · exact .inl ((Walk.Stands.arrivedMet_ne walk _ _ hpresence).trans hg)
    · exact absurd (Option.some.inj hg) hpresence

theorem received_met (rest : List Entry) (slot : Slot) (item : Item)
    (h : walk.Stands input depth stop (siblingBefore depth pre) met)
    (hdepth : entry.depth = depth) (hentry : Bounded entry) (g : Nat)
    (hg : walk.met[g]? = some true ∨ some entry.presence = some (.choice g)) :
    ((walk.arrived (pre ++ entry :: rest) pre.length entry).received pre.length entry slot
      item).met[g]? = some true := by
  by_cases hpresence : entry.presence = .choice g
  · have hgroup : entry.choiceGroup = some g := Entry.choiceGroup_eq_some.mpr hpresence
    have hlt := (h.facing hdepth hentry).group g hgroup
    have hmark : (walk.arrived (pre ++ entry :: rest) pre.length entry).met.length =
        walk.met.length := length_arrivedMet ..
    rw [Walk.received, hgroup]
    exact getElem_markMet (hmark ▸ hlt) true
  · rcases hg with hg | hg
    · rw [Walk.received, getElem_markMet_ne fun hc => hpresence (Entry.choiceGroup_eq_some.mp hc)]
      exact (Walk.Stands.arrivedMet_ne walk _ _ hpresence).trans hg
    · exact absurd (Option.some.inj hg) hpresence

theorem stands_received (h : walk.Stands input depth stop (siblingBefore depth pre) met)
    (hdepth : entry.depth = depth) (hentry : Bounded entry) (hleaf : entry.headerOnly = false) :
    ((walk.arrived (pre ++ entry :: rest) pre.length entry).received pre.length entry slot
      item).Stands input depth stop (some entry.presence) entry.choiceGroup := by
  refine ⟨?_, ?_, h.within, ?_, ?_, fun g hg => congrArg some (Entry.choiceGroup_eq_some.mp hg), ?_⟩
  · simp [Walk.received, hleaf, hdepth]
  · simpa [Walk.received, Walk.arrived, hleaf] using h.region
  · simpa [Walk.received, Walk.arrived, hleaf] using h.ends
  · simpa [Walk.received, Walk.arrived, length_arrivedMet] using h.groups
  · intro g hg
    rw [received_met rest slot item h hdepth hentry g (.inr hg),
      Entry.choiceGroup_eq_some.mpr (Option.some.inj hg), decide_eq_true rfl]

theorem resumes_received (h : walk.Stands input depth stop (siblingBefore depth pre) met)
    (hdepth : entry.depth = depth) (hentry : Bounded entry) (hleaf : entry.headerOnly = false)
    (hlater : ((walk.arrived (pre ++ entry :: rest) pre.length entry).received pre.length entry
      slot item).Resumes depth first later) :
    walk.Resumes depth (some entry.presence) later := by
  refine ⟨hlater.level, ?_, ?_, fun j hj => ?_, fun g hg => ?_⟩
  · rw [hlater.ends]
    simp [Walk.received, Walk.arrived, hleaf]
  · rw [hlater.groups]
    simp [Walk.received, Walk.arrived, length_arrivedMet]
  · rw [hlater.stop j hj]
    simp [Walk.received, Walk.arrived, hleaf]
  · exact hlater.met g (.inl (received_met rest slot item h hdepth hentry g hg))

theorem stands_opened (h : walk.Stands input depth stop (siblingBefore depth pre) met)
    (hdepth : entry.depth = depth) (hentry : Bounded entry) (hheader : entry.headerOnly = true)
    (hitem : item.stop ≤ input.length) :
    ((walk.arrived (pre ++ entry :: rest) pre.length entry).received pre.length entry slot
      item).Stands input (depth + 1) item.stop (siblingBefore (depth + 1) (pre ++ [entry])) none := by
  have hlimit : depth + 1 < walk.ends.length := hdepth ▸ (h.facing hdepth hentry).depth
  refine ⟨?_, ?_, hitem, ?_, ?_, by simp, fun g hg => ?_⟩
  · simp [Walk.received, hheader, hdepth]
  · simp only [Walk.received, hheader, if_true, hdepth]
    exact List.getElem?_set_self hlimit
  · simpa [Walk.received, Walk.arrived, hheader] using h.ends
  · simpa [Walk.received, Walk.arrived, length_arrivedMet] using h.groups
  · rw [siblingBefore_below hdepth] at hg
    cases hg

theorem ends_opened (hdepth : entry.depth = depth) (hlimit : depth + 1 < walk.ends.length)
    (hheader : entry.headerOnly = true)
    (hlater : ((walk.arrived (pre ++ entry :: rest) pre.length entry).received pre.length entry
      slot item).Resumes (depth + 1) first later) :
    later.ends.length = walk.ends.length ∧ later.ends[depth + 1]? = some item.stop ∧
      ∀ j ≤ depth, later.ends[j]? = walk.ends[j]? := by
  have hset : ((walk.arrived (pre ++ entry :: rest) pre.length entry).received pre.length entry
      slot item).ends = walk.ends.set (depth + 1) item.stop := by
    simp [Walk.received, Walk.arrived, hheader, hdepth]
  refine ⟨?_, ?_, fun j hj => ?_⟩
  · rw [hlater.ends, hset, List.length_set]
  · rw [hlater.stop _ (Nat.le_refl _), hset, List.getElem?_set_self hlimit]
  · rw [hlater.stop j (Nat.le_succ_of_le hj), hset, List.getElem?_set_ne (by omega)]

theorem stands_closed (h : walk.Stands input depth stop (siblingBefore depth pre) met)
    (hdepth : entry.depth = depth) (hentry : Bounded entry) (hheader : entry.headerOnly = true)
    (hlater : ((walk.arrived (pre ++ entry :: rest) pre.length entry).received pre.length entry
      slot item).Resumes (depth + 1) first later) :
    ({ later with level := depth } : Walk).Stands input depth stop (some entry.presence)
      entry.choiceGroup := by
  obtain ⟨hlength, _, hends⟩ :=
    ends_opened hdepth (hdepth ▸ (h.facing hdepth hentry).depth) hheader hlater
  refine ⟨rfl, (hends depth (Nat.le_refl _)).trans h.region, h.within, hlength.trans h.ends, ?_,
    fun g hg => congrArg some (Entry.choiceGroup_eq_some.mp hg), fun g hg => ?_⟩
  · exact (hlater.groups.trans (by simp [Walk.received, Walk.arrived, length_arrivedMet])).trans
      h.groups
  · refine (hlater.met g (.inl (received_met rest slot item h hdepth hentry g (.inr hg)))).trans ?_
    rw [Entry.choiceGroup_eq_some.mpr (Option.some.inj hg), decide_eq_true rfl]

theorem resumes_closed (h : walk.Stands input depth stop (siblingBefore depth pre) met)
    (hdepth : entry.depth = depth) (hentry : Bounded entry) (hheader : entry.headerOnly = true)
    (hlater : ((walk.arrived (pre ++ entry :: rest) pre.length entry).received pre.length entry
      slot item).Resumes (depth + 1) first later) {second : Option Presence}
    (hlast : ({ later with level := depth } : Walk).Resumes depth second last) :
    walk.Resumes depth (some entry.presence) last := by
  obtain ⟨hlength, _, hends⟩ :=
    ends_opened hdepth (hdepth ▸ (h.facing hdepth hentry).depth) hheader hlater
  refine ⟨hlast.level, hlast.ends.trans hlength, ?_, fun j hj => (hlast.stop j hj).trans (hends j hj),
    fun g hg => hlast.met g (.inl ?_)⟩
  · exact hlast.groups.trans (hlater.groups.trans
      (by simp [Walk.received, Walk.arrived, length_arrivedMet]))
  · exact hlater.met g (.inl (received_met rest slot item h hdepth hentry g hg))

end Step

end DerTemplate.Decoding
