import DerTemplate.Proofs.Decoding.Simulation
import DerTemplate.Proofs.Outcome

namespace DerTemplate

namespace Decoding

open Schema Attempt

variable {options : Options} {schema : Schema} {input : Bytes} {entry : Entry} {walk : Walk}
variable {i stop : Nat}

/-- The ends of the open levels fall, from that of the window down to the cursor. -/
structure Walk.Enclosed (walk : Walk) (stop : Nat) : Prop where
  table : walk.level < walk.ends.length
  window : walk.ends[0]? = some stop
  falling : ∀ j k outer inner, j ≤ k → k ≤ walk.level → walk.ends[j]? = some outer →
    walk.ends[k]? = some inner → inner ≤ outer
  cursor : ∀ region, walk.ends[walk.level]? = some region → walk.idx ≤ region

namespace Walk.Enclosed

theorem idx_le (h : walk.Enclosed stop) {j region : Nat} (hj : j ≤ walk.level)
    (hregion : walk.ends[j]? = some region) : walk.idx ≤ region := by
  have hlevel := List.getElem?_eq_getElem h.table
  exact Nat.le_trans (h.cursor _ hlevel) (h.falling j _ region _ hj (Nat.le_refl _) hregion hlevel)

theorem ascend (h : walk.Enclosed stop) {depth : Nat} (hdepth : depth ≤ walk.level) (met : List Bool) :
    Walk.Enclosed { walk with level := depth, met := met } stop where
  table := Nat.lt_of_le_of_lt hdepth h.table
  window := h.window
  falling j k outer inner hjk hk := h.falling j k outer inner hjk (Nat.le_trans hk hdepth)
  cursor _ hregion := h.idx_le hdepth hregion

theorem received (h : walk.Enclosed stop) (hlevel : walk.level = entry.depth) {bound : Nat}
    (hbound : walk.ends[entry.depth]? = some bound) {item : Item}
    (hitem : item.contentStart ≤ item.stop) (hstop : item.stop ≤ bound)
    (hroom : entry.headerOnly = true → entry.depth + 1 < walk.ends.length) (slot : Slot)
    (met : List Bool) :
    Walk.Enclosed { walk.received i entry slot item with met := met } stop := by
  have hwithin {j outer : Nat} (hj : j ≤ entry.depth) (houter : walk.ends[j]? = some outer) :
      item.stop ≤ outer :=
    Nat.le_trans hstop (h.falling j entry.depth outer bound hj (Nat.le_of_eq hlevel.symm) houter hbound)
  cases hheader : entry.headerOnly with
  | false =>
    simp only [Walk.received, hheader, Bool.false_eq_true, if_false]
    refine ⟨hlevel ▸ h.table, h.window, ?_, fun region hregion => ?_⟩
    · rw [← hlevel]
      exact h.falling
    · exact hwithin (Nat.le_refl _) hregion
  | true =>
    -- the region that is opened ends at `item.stop`, inside all those around it
    simp only [Walk.received, hheader, if_true]
    refine ⟨?_, ?_, fun j k outer inner hjk hk houter hinner => ?_, fun region hregion => ?_⟩
    · simpa using hroom hheader
    · rw [List.getElem?_set_ne (Nat.succ_ne_zero _)]
      exact h.window
    · dsimp only at hk houter hinner
      rcases Nat.lt_or_eq_of_le hk with hlt | rfl
      · rw [List.getElem?_set_ne (by omega)] at houter hinner
        exact h.falling j k outer inner hjk (by omega) houter hinner
      · rw [List.getElem?_set_self (hroom hheader)] at hinner
        cases hinner
        rcases Nat.lt_or_eq_of_le hjk with hlt | rfl
        · rw [List.getElem?_set_ne (by omega)] at houter
          exact hwithin (by omega) houter
        · rw [List.getElem?_set_self (hroom hheader)] at houter
          cases houter
          exact Nat.le_refl _
    · rw [List.getElem?_set_self (hroom hheader)] at hregion
      cases hregion
      exact hitem

end Walk.Enclosed

theorem fill_bounds {slot filled : Slot} {start bound : Nat} {tag : Tag} {item : Item}
    (h : slot.fill options entry input start bound tag i = .ok (filled, item)) :
    item.contentStart ≤ item.stop ∧ item.stop ≤ bound := by
  obtain ⟨⟨length, next⟩, hlength, h⟩ := bind_eq_ok_iff.mp h
  obtain ⟨last, hlast, h⟩ := bind_eq_ok_iff.mp h
  obtain ⟨raw, _, h⟩ := bind_eq_ok_iff.mp h
  obtain ⟨lead, _, h⟩ := bind_eq_ok_iff.mp h
  obtain ⟨rest, hrest, h⟩ := bind_eq_ok_iff.mp h
  obtain ⟨content, _, h⟩ := bind_eq_ok_iff.mp h
  obtain ⟨value, _, h⟩ := bind_eq_ok_iff.mp h
  cases h
  have hfits := (Header.readLength_bounds (Outcome.leaving_eq_ok_iff.mp hlength)).2
  have hsum := (Word.add_eq_ok_iff.mp (Outcome.leaving_eq_ok_iff.mp hlast)).2
  have hcontent := (Word.sub_eq_ok_iff.mp (Outcome.leaving_eq_ok_iff.mp hrest)).1
  exact ⟨hcontent, by dsimp only; omega⟩

theorem enclosed_visit (h : walk.Enclosed stop) (hdepth : entry.depth ≤ walk.level) {next : Walk}
    {found : Bool} (hvisit : walk.visit options schema input i entry = .ok (next, found)) :
    next.Enclosed stop ∧
      next.level = if found then depthAfter (some entry) else entry.depth := by
  obtain ⟨arrived, harrived, hvisit⟩ := bind_eq_ok_iff.mp hvisit
  obtain ⟨met, rfl⟩ := arrive_eq_ok (Outcome.leaving_eq_ok_iff.mp harrived)
  rw [Nat.min_eq_left hdepth] at hvisit
  have hopen := h.ascend hdepth met
  obtain ⟨slot, _, hvisit⟩ := bind_eq_ok_iff.mp hvisit
  obtain ⟨octet, _, hvisit⟩ := bind_eq_ok_iff.mp hvisit
  obtain ⟨taken, _, hvisit⟩ := bind_eq_ok_iff.mp hvisit
  obtain ⟨judged, _, hvisit⟩ := bind_eq_ok_iff.mp hvisit
  cases judged with
  | none =>
    obtain ⟨passed, hpassed, hvisit⟩ := bind_eq_ok_iff.mp hvisit
    cases hvisit
    obtain ⟨slots, rfl⟩ := pass_eq_ok hpassed
    exact ⟨⟨hopen.table, hopen.window, hopen.falling, hopen.cursor⟩, rfl⟩
  | some tag =>
    obtain ⟨last, hlast, hvisit⟩ := bind_eq_ok_iff.mp hvisit
    cases hvisit
    obtain ⟨bound, filled, item, met, hbound, hfill, hroom, rfl⟩ := take_eq_ok hlast
    obtain ⟨hitem, hstop⟩ := fill_bounds hfill
    exact ⟨hopen.received rfl hbound hitem hstop hroom filled met, rfl⟩

theorem enclosed_run (hvalid : schema.validate = .ok ()) (options : Options) (input : Bytes)
    (h : walk.Enclosed stop) (hdepth : ∀ entry ∈ schema[i]?, entry.depth ≤ walk.level) :
    (walk.run options schema input i).Ends (fun _ => True) fun last => last.Enclosed stop := by
  fun_induction walk.run options schema input i with
  | case1 walk i hi ihFound ihAbsent =>
    have hentry : schema[i]? = some schema[i] := List.getElem?_eq_getElem hi
    cases hvisit : walk.visit options schema input i schema[i] with
    | error interrupted => trivial
    | ok visited =>
      obtain ⟨next, found⟩ := visited
      obtain ⟨hnext, hlevel⟩ := enclosed_visit h (hdepth _ hentry) hvisit
      rw [ok_bind]
      cases found with
      | true => exact ihFound next hnext fun e he => hlevel ▸ depth_succ_le hvalid hentry he
      | false => exact ihAbsent next hnext fun e he => hlevel ▸ depth_subtreeEnd_le hentry he
  | case2 walk i hi => exact h

theorem enclosed_begin (slots : List Slot) {cursor : Nat} (h : cursor ≤ stop) :
    (Walk.begin slots cursor stop).Enclosed stop where
  table := by simp [Walk.begin]
  window := by simp [Walk.begin]
  falling j k outer inner hjk hk houter hinner := by
    obtain rfl := List.eq_of_mem_replicate (List.mem_of_getElem? houter)
    obtain rfl := List.eq_of_mem_replicate (List.mem_of_getElem? hinner)
    exact Nat.le_refl _
  cursor region hregion := by
    obtain rfl := List.eq_of_mem_replicate (List.mem_of_getElem? hregion)
    exact h

theorem closeLevels_ok {ends : List Nat} {level idx : Nat} (depth : Nat)
    (h : ∀ j, 0 < j → j ≤ level → ends[j]? = some idx) :
    closeLevels ends depth idx level = .ok () := by
  induction level with
  | zero => rfl
  | succ level ih =>
    unfold closeLevels
    split
    · rfl
    · rw [fetch_eq_ok_iff.mpr (h _ (Nat.succ_pos _) (Nat.le_refl _)), ok_bind, if_pos rfl]
      exact ih fun j hpos hj => h j hpos (Nat.le_succ_of_le hj)

theorem finish_enclosed (h : walk.Enclosed stop) :
    walk.finish true stop = .ok () ↔ walk.idx = stop := by
  rw [Walk.finish, if_pos rfl]
  constructor
  · intro hfinish
    obtain ⟨_, _, hfinish⟩ := bind_eq_ok_iff.mp hfinish
    split at hfinish
    · assumption
    · cases hfinish
  · intro hidx
    have hclosed : closeLevels walk.ends 0 walk.idx walk.level = .ok () := by
      refine closeLevels_ok 0 fun j _ hj => ?_
      have hregion := List.getElem?_eq_getElem (Nat.lt_of_le_of_lt hj h.table)
      have houter := h.falling 0 j stop _ (Nat.zero_le j) hj h.window hregion
      have hinner := h.idx_le hj hregion
      rw [hregion]
      congr 1
      omega
    rw [hclosed, ok_bind, if_pos hidx]
    rfl

theorem decode_complete_iff (session : Session) (options : Options) (schema : Schema) (input : Bytes)
    (maxIndex : Nat) (done : Session) :
    session.decode options schema input true maxIndex = .ok done ↔
      session.decode options schema input false maxIndex = .ok done ∧
        done.cursor = min maxIndex input.length := by
  unfold Session.decode
  dsimp only
  generalize min maxIndex input.length = stop
  cases hcheck : session.check schema stop with
  | error failure => simp
  | ok _ =>
    obtain ⟨hvalid, _, hcursor⟩ := check_eq_ok_iff.mp hcheck
    have hbegin := enclosed_begin (session.slots.map Slot.clear) hcursor
    have hrun := enclosed_run hvalid options input hbegin fun entry hentry =>
      Schema.depth_le_of_checkFrom (j := 0) hvalid hentry
    rw [Outcome.leaving_ok, ok_bind, ok_bind]
    cases hwalk : (Walk.begin (session.slots.map Slot.clear) session.cursor stop).run options schema
        input 0 with
    | error interrupted => simp
    | ok walk =>
      have hlast : walk.Enclosed stop := by
        rw [hwalk] at hrun
        exact hrun
      have hloose : walk.finish false stop = .ok () := rfl
      have hfinish := finish_enclosed hlast
      simp only [hloose, Outcome.leaving_ok, ok_bind, bind_eq_ok_iff, Outcome.leaving_eq_ok_iff,
        pure, Except.pure, Except.ok.injEq]
      constructor
      · rintro ⟨_, hended, rfl⟩
        exact ⟨rfl, hfinish.mp hended⟩
      · rintro ⟨rfl, hcursor⟩
        exact ⟨(), hfinish.mpr hcursor, rfl⟩

end Decoding

end DerTemplate
