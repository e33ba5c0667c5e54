import DerTemplate.Proofs.Canonical.Calls
import DerTemplate.Proofs.Canonical.Lookup
import Mathlib.Logic.Function.Iterate

namespace DerTemplate.Canonical

open Header (lengthSize)

structure Opening where
  start : Nat
  tagSize : Nat
  headerSize : Option Nat
  bound : Nat
deriving DecidableEq, Repr

/-- What happened directly inside an item. An item that was closed there comes with what happened
inside it in turn, the latest first. -/
inductive Event where
  | data (length : Nat) (changed : Bool)
  | merged (unusedBits : UInt8)
  | item (opening : Opening) (inside : List Event)
deriving Repr

mutual

def Event.size : Event → Nat
  | .data length _ => length
  | .merged _ => 0
  | .item opening inside => opening.tagSize + lengthSize (total inside) + total inside

def total : List Event → Nat
  | [] => 0
  | event :: rest => event.size + total rest

end

def unusedOf : List Event → UInt8
  | [] => 0
  | .merged unusedBits :: _ => unusedBits
  | _ :: rest => unusedOf rest

/-- What makes the canonical form of an item differ from what was read. -/
inductive Rewritten : Opening → List Event → Prop where
  | indefinite {opening : Opening} {inside : List Event} (h : opening.headerSize = none) :
    Rewritten opening inside
  | merged {opening : Opening} {inside : List Event} {unusedBits : UInt8}
    (h : .merged unusedBits ∈ inside) : Rewritten opening inside
  | data {opening : Opening} {inside : List Event} {length : Nat} (h : .data length true ∈ inside) :
    Rewritten opening inside
  | item {opening inner : Opening} {inside further : List Event} (h : .item inner further ∈ inside)
    (hinner : Rewritten inner further) : Rewritten opening inside
  | header {opening : Opening} {inside : List Event} {size : Nat} (h : opening.headerSize = some size)
    (hsize : size ≠ opening.tagSize + lengthSize (total inside)) : Rewritten opening inside

mutual

def Event.changes : Event → Bool
  | .data _ changed => changed
  | .merged _ => true
  | .item opening inside =>
    opening.headerSize.isNone || anyChanges inside ||
      opening.headerSize != some (opening.tagSize + lengthSize (total inside))

def anyChanges : List Event → Bool
  | [] => false
  | event :: rest => event.changes || anyChanges rest

end

variable {opening : Opening} {inside : List Event}

theorem anyChanges_eq_true_iff : anyChanges inside = true ↔ ∃ event ∈ inside, event.changes = true := by
  induction inside with
  | nil => simp [anyChanges]
  | cons event rest ih => simp [anyChanges, ih]

theorem changes_of_rewritten (h : Rewritten opening inside) :
    (Event.item opening inside).changes = true := by
  have hany {opening : Opening} {inside : List Event} {event : Event} (hmem : event ∈ inside)
      (hevent : event.changes = true) : (Event.item opening inside).changes = true := by
    rw [Event.changes, anyChanges_eq_true_iff.mpr ⟨event, hmem, hevent⟩, Bool.or_true, Bool.true_or]
  induction h with
  | indefinite h => rw [Event.changes, h]; rfl
  | merged h => exact hany h rfl
  | data h => exact hany h rfl
  | item h _ ih => exact hany h ih
  | header h hsize =>
    rw [Event.changes, h, Bool.or_eq_true]
    exact .inr (bne_iff_ne.mpr fun hsame => hsize (Option.some.inj hsame))

theorem rewritten_of_changes {opening : Opening} {inside : List Event}
    (h : (Event.item opening inside).changes = true) : Rewritten opening inside := by
  rw [Event.changes, Bool.or_eq_true, Bool.or_eq_true, anyChanges_eq_true_iff] at h
  rcases h with (hnone | ⟨event, hmem, hevent⟩) | hheader
  · exact .indefinite (Option.isNone_iff_eq_none.mp hnone)
  · match event with
    | .data length true => exact .data hmem
    | .merged unusedBits => exact .merged hmem
    | .item inner further => exact .item hmem (rewritten_of_changes hevent)
  · cases hsize : opening.headerSize with
    | none => exact .indefinite hsize
    | some size =>
      rw [hsize] at hheader
      exact .header hsize fun hsame => bne_iff_ne.mp hheader (congrArg some hsame)
termination_by sizeOf inside
decreasing_by
  -- What happened inside an item is part of what happened around it.
  have := List.sizeOf_lt_of_mem hmem
  simp only [Event.item.sizeOf_spec] at this
  omega

structure Item where
  opening : Opening
  inside : List Event
deriving Repr

structure Closed where
  item : Item
  depth : Nat
deriving Repr

structure Past where
  closed : List Closed
  opened : List Item
deriving Repr

def Item.note (item : Item) (event : Event) : Item := { item with inside := event :: item.inside }

def Item.endsAt (idx : Nat) (item : Item) : Bool :=
  item.opening.headerSize.isSome && item.opening.bound == idx

namespace Past

def empty : Past := ⟨[], []⟩

def enter (past : Past) (opening : Opening) : Past :=
  { past with opened := ⟨opening, []⟩ :: past.opened }

def note (past : Past) (event : Event) : Past :=
  { past with opened := past.opened.modifyHead fun item => item.note event }

def close (past : Past) : Past :=
  match past.opened with
  | [] => past
  | item :: around =>
    note ⟨past.closed ++ [⟨item, around.length⟩], around⟩ (.item item.opening item.inside)

def closeAt (past : Past) (idx : Nat) : Past :=
  close^[(past.opened.takeWhile (Item.endsAt idx)).length] past

theorem takeWhile_note (past : Past) (event : Event) (idx : Nat) :
    ((past.note event).opened.takeWhile (Item.endsAt idx)).length =
      (past.opened.takeWhile (Item.endsAt idx)).length := by
  rw [note]
  cases past.opened with
  | nil => rfl
  | cons item around =>
    rw [List.modifyHead_cons, List.takeWhile_cons, List.takeWhile_cons,
      show (item.note event).endsAt idx = item.endsAt idx from rfl]
    split <;> rfl

theorem closeAt_eq (past : Past) (idx : Nat) :
    past.closeAt idx =
      if past.opened.head?.any (Item.endsAt idx) then past.close.closeAt idx else past := by
  unfold closeAt
  cases hopened : past.opened with
  | nil => rfl
  | cons item around =>
    rw [List.takeWhile_cons, List.head?_cons, Option.any_some]
    split
    · rw [close, hopened, takeWhile_note, List.length_cons, Function.iterate_succ_apply, close, hopened]
    · rfl

def follow (past : Past) : Call → Past
  | .openIndefinite start tagSize bound => past.enter ⟨start, tagSize, none, bound⟩
  | .openDefinite start tagSize headerSize stop => past.enter ⟨start, tagSize, some headerSize, stop⟩
  | .add length changed => past.note (.data length changed)
  | .markMerged unusedBits => past.note (.merged unusedBits)
  | .closeAt idx => past.closeAt idx
  | .close => past.close

def of (calls : List Call) : Past := calls.foldl follow empty

end Past

def Call.start? : Call → Option Nat
  | .openIndefinite start _ _ | .openDefinite start _ _ _ => some start
  | _ => none

namespace Past

def starts (past : Past) : List Nat :=
  past.closed.map (fun closed => closed.item.opening.start) ++
    past.opened.map fun item => item.opening.start

theorem starts_note (past : Past) (event : Event) : (past.note event).starts = past.starts := by
  rw [starts, note]
  cases hopened : past.opened with
  | nil => rw [starts, hopened]; rfl
  | cons item around => rw [starts, hopened]; rfl

theorem starts_close (past : Past) : past.close.starts = past.starts := by
  rw [close]
  split
  · rfl
  · rename_i item around hopened
    rw [starts_note, starts, starts, hopened, List.map_append, List.append_assoc]
    rfl

theorem starts_closeAt (past : Past) (idx : Nat) : (past.closeAt idx).starts = past.starts := by
  unfold closeAt
  generalize (past.opened.takeWhile (Item.endsAt idx)).length = n
  induction n generalizing past with
  | zero => rfl
  | succ n ih => rw [Function.iterate_succ_apply, ih, starts_close]

theorem starts_follow (past : Past) (call : Call) :
    (past.follow call).starts.Perm (call.start?.toList ++ past.starts) := by
  cases call with
  | openIndefinite => exact List.perm_middle
  | openDefinite => exact List.perm_middle
  | add length changed => exact .of_eq (starts_note past _)
  | markMerged unusedBits => exact .of_eq (starts_note past _)
  | closeAt idx => exact .of_eq (starts_closeAt past idx)
  | close => exact .of_eq (starts_close past)

theorem starts_foldl (past : Past) (calls : List Call) :
    (calls.foldl follow past).starts.Perm (calls.filterMap Call.start? ++ past.starts) := by
  induction calls generalizing past with
  | nil => exact .refl _
  | cons call calls ih =>
    rw [List.foldl_cons]
    refine (ih (past.follow call)).trans (((starts_follow past call).append_left _).trans ?_)
    rw [List.filterMap_cons]
    cases call.start? with
    | none => exact .refl _
    | some start => exact List.perm_middle

theorem starts_of (calls : List Call) : (of calls).starts.Perm (calls.filterMap Call.start?) := by
  have h := starts_foldl empty calls
  rwa [show empty.starts = [] from rfl, List.append_nil] at h

end Past

def Item.book (item : Item) : OpenItem where
  start := item.opening.start
  tagSize := item.opening.tagSize
  headerSize := item.opening.headerSize
  bound := item.opening.bound
  contentLength := total item.inside
  changed := item.opening.headerSize.isNone || anyChanges item.inside
  unusedBits := unusedOf item.inside

def Closed.record (closed : Closed) : Record where
  start := closed.item.opening.start
  tagSize := closed.item.opening.tagSize
  depth := closed.depth
  contentLength := total closed.item.inside
  unusedBits := unusedOf closed.item.inside

def Closed.changes (closed : Closed) : Bool :=
  (Event.item closed.item.opening closed.item.inside).changes

namespace Ledger

/-- The books show what is open, and have the records of the closed items that are rewritten. -/
structure Tells (ledger : Ledger) (past : Past) : Prop where
  opened : ledger.opened = past.opened.map Item.book
  records : ledger.records = (past.closed.filter Closed.changes).map Closed.record

variable {ledger ledger' : Ledger} {past : Past}

theorem tells_empty : empty.Tells .empty := ⟨rfl, rfl⟩

theorem Tells.enter (h : ledger.Tells past) (start tagSize : Nat) (headerSize : Option Nat)
    (bound : Nat) :
    (ledger.enclosed ⟨start, tagSize, headerSize, bound, 0, headerSize.isNone, 0⟩).Tells
      (past.enter ⟨start, tagSize, headerSize, bound⟩) := by
  refine ⟨?_, h.records⟩
  rw [opened_enclosed, h.opened, Past.enter, List.map_cons]
  simp [Item.book, total, anyChanges, unusedOf]

theorem Tells.grown (h : ledger.Tells past) (event : Event)
    (hunused : ∀ inside, unusedOf (event :: inside) = unusedOf inside) :
    (ledger.grown event.size event.changes).Tells (past.note event) := by
  refine ⟨?_, by rw [records_grown, h.records]; rfl⟩
  rw [opened_grown, h.opened, Past.note]
  cases past.opened with
  | nil => rfl
  | cons item around =>
    simp only [List.map_cons, List.modifyHead_cons, Item.book, Item.note, total, anyChanges, hunused]
    rw [Nat.add_comm, Bool.or_assoc, Bool.or_comm event.changes]

theorem Tells.markMerged (h : ledger.Tells past) (unusedBits : UInt8) :
    (ledger.markMerged unusedBits).Tells (past.note (.merged unusedBits)) := by
  have hopened := h.opened
  unfold Ledger.markMerged Past.note
  cases hpast : past.opened with
  | nil =>
    rw [hpast, List.map_nil] at hopened
    rw [hopened]
    exact ⟨hopened, h.records⟩
  | cons item around =>
    rw [hpast, List.map_cons] at hopened
    rw [hopened]
    refine ⟨?_, h.records⟩
    simp [Item.book, Item.note, total, Event.size, anyChanges, Event.changes, unusedOf]

theorem records_closed (item : Item) (depth : Nat) :
    (if leavesRecord item.book then [recordOf item.book depth] else []) =
      ([⟨item, depth⟩].filter Closed.changes).map Closed.record := by
  rw [List.filter_cons, List.filter_nil,
    show leavesRecord item.book = Closed.changes ⟨item, depth⟩ from rfl]
  split <;> rfl

theorem Tells.close (h : ledger.Tells past) (hclose : ledger.close.outcome = .ok ledger') :
    ledger'.Tells past.close := by
  obtain ⟨item, around, hopened, rfl⟩ := eq_grown_of_close hclose
  rw [h.opened] at hopened
  unfold Past.close
  cases hpast : past.opened with
  | nil =>
    rw [hpast] at hopened
    cases hopened
  | cons top outer =>
    rw [hpast] at hopened
    obtain ⟨rfl, rfl⟩ := List.cons.inj hopened
    have hclosed : Tells
        ⟨ledger.records ++ (if leavesRecord top.book then
            [recordOf top.book (outer.map Item.book).length] else []),
          outer.map Item.book, (ledger.without top.book (outer.map Item.book)).indefinite⟩
        ⟨past.closed ++ [⟨top, outer.length⟩], outer⟩ := by
      refine ⟨rfl, ?_⟩
      rw [h.records, List.filter_append, List.map_append, List.length_map, records_closed]
    exact hclosed.grown (.item top.opening top.inside) fun _ => rfl

theorem Tells.endsAt (h : ledger.Tells past) (idx : Nat) :
    ledger.endsAt idx = past.opened.head?.any (Item.endsAt idx) := by
  rw [Ledger.endsAt, h.opened]
  cases past.opened <;> rfl

theorem Tells.closeUpTo (h : ledger.Tells past) {idx n : Nat} (hn : ledger.opened.length ≤ n)
    (hclose : closeUpTo idx n ledger = .ok ledger') : ledger'.Tells (past.closeAt idx) := by
  rw [Past.closeAt_eq]
  induction n generalizing ledger past with
  | zero =>
    have hnone := List.eq_nil_of_length_eq_zero (Nat.le_zero.mp hn)
    rw [← h.endsAt, Ledger.endsAt, hnone, if_neg Bool.false_ne_true]
    cases hclose
    exact h
  | succ n ih =>
    rw [Ledger.closeUpTo] at hclose
    rw [← h.endsAt]
    split
    · rename_i hends
      rw [if_pos hends] at hclose
      obtain ⟨closed, hfirst, hclose⟩ := bind_eq_ok_iff.mp hclose
      have hfirst := Attempt.outcome_eq_ok_iff.mpr hfirst
      obtain ⟨frame, hframes⟩ := frames_of_close hfirst
      have hlength := congrArg List.length hframes
      rw [List.length_cons, length_frames, length_frames] at hlength
      rw [Past.closeAt_eq]
      exact ih (h.close hfirst) (by omega) hclose
    · rename_i hends
      rw [if_neg hends] at hclose
      cases hclose
      exact h

theorem Tells.follow (h : ledger.Tells past) {call : Call}
    (hperform : ledger.perform call = .ok ledger') : ledger'.Tells (past.follow call) := by
  cases call with
  | openIndefinite start tagSize bound =>
    obtain ⟨_, rfl⟩ := openIndefinite_eq_ok_iff.mp (Outcome.leaving_eq_ok_iff.mp hperform)
    exact h.enter start tagSize none bound
  | openDefinite start tagSize headerSize stop =>
    obtain ⟨_, rfl⟩ := openDefinite_eq_ok_iff.mp (Outcome.leaving_eq_ok_iff.mp hperform)
    exact h.enter start tagSize (some headerSize) stop
  | add length changed =>
    rw [(meets_add _ _ _).of_ok (Outcome.leaving_eq_ok_iff.mp hperform)]
    exact h.grown (.data length changed) fun _ => rfl
  | markMerged unusedBits =>
    cases hperform
    exact h.markMerged unusedBits
  | closeAt idx => exact h.closeUpTo (Nat.le_refl _) hperform
  | close => exact h.close (Attempt.outcome_eq_ok_iff.mpr hperform)

theorem Tells.foldl (h : ledger.Tells past) {calls : List Call}
    (hrun : calls.foldlM perform ledger = .ok ledger') :
    ledger'.Tells (calls.foldl Past.follow past) := by
  induction calls generalizing ledger past with
  | nil =>
    cases hrun
    exact h
  | cons call calls ih =>
    rw [List.foldlM_cons] at hrun
    obtain ⟨next, hnext, hrun⟩ := bind_eq_ok_iff.mp hrun
    exact ih (h.follow hnext) hrun

theorem tells_of_run {calls : List Call} (hrun : run calls = .ok ledger) :
    ledger.Tells (.of calls) :=
  tells_empty.foldl hrun

theorem find?_run {calls : List Call} {start : Nat} {record : Record}
    (hrun : run calls = .ok ledger) (hstarts : (calls.filterMap Call.start?).Nodup) :
    ledger.sorted.find? start = some record ↔
      ∃ closed ∈ (Past.of calls).closed, Rewritten closed.item.opening closed.item.inside ∧
        closed.item.opening.start = start ∧ closed.record = record := by
  have htells := tells_of_run hrun
  have hclosed : ((Past.of calls).closed.map fun closed => closed.item.opening.start).Nodup :=
    (List.nodup_append.mp ((Past.starts_of calls).nodup_iff.mpr hstarts)).1
  have hnodup : (ledger.records.map Record.start).Nodup := by
    rw [htells.records, List.map_map]
    exact hclosed.sublist (List.filter_sublist.map _)
  rw [find?_sorted hnodup, htells.records, List.mem_map]
  constructor
  · rintro ⟨⟨closed, hmem, rfl⟩, hstart⟩
    obtain ⟨hmem, hchanges⟩ := List.mem_filter.mp hmem
    exact ⟨closed, hmem, rewritten_of_changes hchanges, hstart, rfl⟩
  · rintro ⟨closed, hmem, hrewritten, hstart, rfl⟩
    exact ⟨⟨closed, List.mem_filter.mpr ⟨hmem, changes_of_rewritten hrewritten⟩, rfl⟩, hstart⟩

theorem books_of_calls (calls : List Call) :
    ((after calls).Balanced ∧ (after calls).takeTop ≠ .error .fault ∧
      ((calls.map Call.size).sum < wordLimit →
        ∀ call, ((after calls).perform call).outcome ≠ .error .fault)) ∧
    ∀ ledger, run calls = .ok ledger → (calls.filterMap Call.start?).Nodup →
      ∀ start record, ledger.sorted.find? start = some record ↔
        ∃ closed ∈ (Past.of calls).closed, Rewritten closed.item.opening closed.item.inside ∧
          closed.item.opening.start = start ∧ closed.record = record := by
  have hwithin := within_after calls
  refine ⟨⟨hwithin.balanced, ?_, fun hlimit call hfault => ?_⟩, fun ledger hrun hstarts start record =>
    find?_run hrun hstarts⟩
  · obtain hnone | ⟨item, around, _, htop⟩ := hwithin.balanced.takeTop
    · rw [hnone]
      exact nofun
    · rw [htop]
      exact nofun
  · have hsafe := safe_perform hwithin call hlimit
    rw [hfault] at hsafe
    exact hsafe

def indefiniteInside : List Call :=
  [.openDefinite 0 1 2 8, .openIndefinite 2 1 8, .add 2 false, .close, .closeAt 8]

theorem books_of_calls_indefiniteInside :
    (indefiniteInside.map Call.size).sum < wordLimit ∧
      run indefiniteInside = .ok ⟨[⟨2, 1, 1, 2, 0⟩, ⟨0, 1, 0, 4, 0⟩], [], 0⟩ ∧
      (indefiniteInside.filterMap Call.start?).Nodup ∧
      ((after indefiniteInside).perform .close).outcome ≠ .error .fault ∧
      Ledger.find? (sorted ⟨[⟨2, 1, 1, 2, 0⟩, ⟨0, 1, 0, 4, 0⟩], [], 0⟩) 0 = some ⟨0, 1, 0, 4, 0⟩ := by
  have hsize : (indefiniteInside.map Call.size).sum < wordLimit := by decide
  have hrun : run indefiniteInside = .ok ⟨[⟨2, 1, 1, 2, 0⟩, ⟨0, 1, 0, 4, 0⟩], [], 0⟩ := rfl
  have hstarts : (indefiniteInside.filterMap Call.start?).Nodup := by decide
  obtain ⟨⟨_, _, hsafe⟩, hfind⟩ := books_of_calls indefiniteInside
  refine ⟨hsize, hrun, hstarts, hsafe hsize .close, (hfind _ hrun hstarts 0 ⟨0, 1, 0, 4, 0⟩).mpr ?_⟩
  refine ⟨⟨⟨⟨0, 1, some 2, 8⟩, [.item ⟨2, 1, none, 8⟩ [.data 2 false]]⟩, 0⟩, ?_, ?_, rfl, rfl⟩
  · exact List.mem_cons_of_mem _ List.mem_cons_self
  · exact .item List.mem_cons_self (.indefinite rfl)

end Ledger

end DerTemplate.Canonical
