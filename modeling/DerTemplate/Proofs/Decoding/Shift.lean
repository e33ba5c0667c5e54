import DerTemplate.Decoding.Content
import DerTemplate.Proofs.Bytes.Window
import DerTemplate.Schema.Structure

namespace DerTemplate

variable {α β γ δ : Type} {n : Nat}

def Truncation.moved (n : Nat) : Truncation → Truncation
  | .noTag offset => .noTag (offset + n)
  | .tagNumber offset => .tagNumber (offset + n)
  | .noLength offset => .noLength (offset + n)
  | .lengthField offset => .lengthField (offset + n)
  | .pastBound length offset bound => .pastBound length (offset + n) (bound + n)
  | .cursorPastEnd cursor stop => .cursorPastEnd (cursor + n) (stop + n)
  | .missingEntry index offset => .missingEntry index (offset + n)
  | .pastParent offset length => .pastParent (offset + n) length
  | placeless => placeless

def Malformation.moved (n : Nat) : Malformation → Malformation
  | .tagNumberTooLong offset => .tagNumberTooLong (offset + n)
  | .lengthFieldTooLong count offset => .lengthFieldTooLong count (offset + n)
  | .lengthOverflow length offset => .lengthOverflow length (offset + n)
  | .indefiniteLength offset => .indefiniteLength (offset + n)
  | .badEndOfContent offset => .badEndOfContent (offset + n)
  | .missingEndOfContent offset => .missingEndOfContent (offset + n)
  | .strayEndOfContent offset => .strayEndOfContent (offset + n)
  | .indefinitePrimitive offset => .indefinitePrimitive (offset + n)
  | .fragmentTag found offset string => .fragmentTag found (offset + n) string
  | .indefiniteFragment offset => .indefiniteFragment (offset + n)
  | .fragmentAfterPartial offset => .fragmentAfterPartial (offset + n)
  | placeless => placeless

def Misuse.moved (n : Nat) : Misuse → Misuse
  | .indefinitePrimitive offset => .indefinitePrimitive (offset + n)
  | .noRecord offset => .noRecord (offset + n)
  | .indefiniteFragment offset => .indefiniteFragment (offset + n)
  | placeless => placeless

def Error.moved (n : Nat) : Error → Error
  | .truncatedInput cause => .truncatedInput (cause.moved n)
  | .unexpectedTag index offset tag => .unexpectedTag index (offset + n) tag
  | .expectedOid index offset => .expectedOid index (offset + n)
  | .expectedBitString index offset => .expectedBitString index (offset + n)
  | .invalidEncoding cause => .invalidEncoding (cause.moved n)
  | .trailingData expected actual => .trailingData (expected + n) (actual + n)
  | .internalError cause => .internalError (cause.moved n)
  | placeless => placeless

def Failure.moved (n : Nat) : Failure → Failure
  | .refused error => .refused (error.moved n)
  | .fault => .fault

def Failure.SameVariant : Failure → Failure → Prop
  | .refused error, .refused error' => error.ctorIdx = error'.ctorIdx
  | .fault, .fault => True
  | _, _ => False

theorem Failure.sameVariant_moved (n : Nat) (failure : Failure) :
    (failure.moved n).SameVariant failure := by
  cases failure with
  | fault => trivial
  | refused error => cases error <;> rfl

namespace Outcome

def moved (n : Nat) (f : α → β) : Outcome α → Outcome β
  | .ok a => .ok (f a)
  | .error failure => .error (failure.moved n)

theorem moved_bind {x : Outcome α} {x' : Outcome β} {f : α → β} {g : γ → δ}
    {next : α → Outcome γ} {next' : β → Outcome δ} (hx : x' = x.moved n f)
    (hnext : ∀ a, x = .ok a → next' (f a) = (next a).moved n g) :
    (x' >>= next') = (x >>= next).moved n g := by
  subst hx
  cases x with
  | ok a => exact hnext a rfl
  | error failure => rfl

def Placeless (x : Outcome α) : Prop := ∀ n, x.moved n id = x

theorem Placeless.moved_bind {x : Outcome α} {g : γ → δ} {next : α → Outcome γ}
    {next' : α → Outcome δ} (hx : x.Placeless)
    (hnext : ∀ a, x = .ok a → next' a = (next a).moved n g) :
    (x >>= next') = (x >>= next).moved n g :=
  Outcome.moved_bind (hx n).symm hnext

theorem placeless_ok (a : α) : Placeless (.ok a) := fun _ => rfl

theorem placeless_fault : Placeless (fault : Outcome α) := fun _ => rfl

theorem placeless_refuse {error : Error} (h : ∀ n, error.moved n = error) :
    Placeless (refuse error : Outcome α) := fun n => by
  rw [refuse, moved, Failure.moved, h n]

theorem Placeless.bind {x : Outcome α} {next : α → Outcome β} (hx : x.Placeless)
    (hnext : ∀ a, (next a).Placeless) : Placeless (x >>= next) := fun n =>
  (hx.moved_bind fun a _ => (hnext a n).symm).symm

theorem placeless_fetch (list : List α) (i : Nat) : (fetch list i).Placeless := by
  unfold fetch
  split
  · exact placeless_ok _
  · exact placeless_fault

theorem placeless_slice (bytes : Bytes) (start stop : Nat) :
    (bytes.slice start stop).Placeless := by
  unfold Bytes.slice
  split
  · exact placeless_ok _
  · exact placeless_fault

end Outcome

open Outcome

namespace Bytes

variable {wide input : Bytes}

theorem Holds.getElem?_add (h : wide.Holds n input) {i : Nat} (hi : i < input.length) :
    wide[i + n]? = input[i]? := by
  have hpart := congrArg (·[i]?) h.2
  rwa [List.getElem?_take_of_lt hi, List.getElem?_drop, Nat.add_comm] at hpart

theorem Holds.take_drop_add (h : wide.Holds n input) {start length : Nat}
    (hstop : start + length ≤ input.length) :
    (wide.drop (start + n)).take length = (input.drop start).take length := by
  have hpart := congrArg (fun part => (part.drop start).take length) h.2
  rwa [List.drop_take, List.drop_drop, List.take_take, Nat.min_eq_left (by omega),
    Nat.add_comm n start] at hpart

theorem Holds.fetch_add (h : wide.Holds n input) {i : Nat} (hi : i < input.length) :
    DerTemplate.fetch wide (i + n) = DerTemplate.fetch input i := by
  rw [DerTemplate.fetch, DerTemplate.fetch, h.getElem?_add hi]

theorem Holds.slice_add (h : wide.Holds n input) {start stop : Nat} (hstop : stop ≤ input.length) :
    wide.slice (start + n) (stop + n) = input.slice start stop := by
  have hwide := h.1
  unfold Bytes.slice
  by_cases hstart : start ≤ stop
  · rw [if_pos ⟨by omega, by omega⟩, if_pos ⟨hstart, hstop⟩, Nat.add_sub_add_right,
      h.take_drop_add (by omega)]
  · rw [if_neg (by omega), if_neg (by omega)]

end Bytes

namespace Header

variable {wide input : Bytes} {bound : Nat}

theorem readAnyLength_moved (h : wide.Holds n input) (hbound : bound ≤ input.length) (idx : Nat) :
    readAnyLength wide (idx + n) (bound + n) =
      (readAnyLength input idx bound).moved n fun (form, next) => (form, next + n) := by
  have hwide : min (bound + n) wide.length = bound + n := by
    have := h.1
    omega
  have hnext (k : Nat) : idx + n + k = idx + k + n := Nat.add_right_comm idx n k
  unfold readAnyLength
  rw [hwide, Nat.min_eq_left hbound, hnext]
  by_cases hidx : bound ≤ idx
  · rw [if_pos (Nat.add_le_add_right hidx n), if_pos hidx]
    rfl
  · rw [if_neg (by omega), if_neg hidx, h.fetch_add (by omega)]
    refine (placeless_fetch input idx).moved_bind fun first _ => ?_
    split
    · rfl
    · split
      · rfl
      · dsimp only
        split
        · rfl
        · rw [Nat.add_right_comm (idx + 1) n]
          by_cases hdigits : bound < idx + 1 + (first &&& 0x7F).toNat
          · rw [if_pos (Nat.add_lt_add_right hdigits n), if_pos hdigits]
            rfl
          · rw [if_neg (by omega), if_neg hdigits, h.slice_add (by omega)]
            refine (placeless_slice input _ _).moved_bind fun digits _ => ?_
            split <;> rfl

theorem readLength_moved (h : wide.Holds n input) (hbound : bound ≤ input.length) (idx : Nat)
    (check : Bool) :
    readLength wide (idx + n) (bound + n) check =
      (readLength input idx bound check).moved n fun (length, next) => (length, next + n) := by
  have hwide : min (bound + n) wide.length = bound + n := by
    have := h.1
    omega
  refine moved_bind (readAnyLength_moved h hbound idx) fun (form, next) _ => ?_
  cases form with
  | indefinite => rfl
  | definite length =>
    dsimp only
    rw [hwide, Nat.min_eq_left hbound]
    simp only [Nat.add_right_comm next n, Nat.add_lt_add_iff_right]
    split <;> rfl

end Header

namespace Schema

theorem placeless_checkFrom (i : Nat) (before : Option Entry) (entries : List Entry) :
    (checkFrom i before entries).Placeless := by
  induction entries generalizing i before with
  | nil => exact placeless_ok ()
  | cons entry rest ih =>
    unfold checkFrom
    split
    · exact placeless_refuse fun _ => rfl
    · refine .bind ?_ fun _ => .bind ?_ fun _ => ih _ _
      · unfold checkNesting
        split <;> split
        · exact placeless_ok ()
        · exact placeless_refuse fun _ => rfl
        · exact placeless_refuse fun _ => rfl
        · exact placeless_ok ()
      · unfold checkGroup
        split
        · exact placeless_ok ()
        · split
          · exact placeless_refuse fun _ => rfl
          · exact placeless_ok ()

theorem placeless_validate (schema : Schema) : schema.validate.Placeless :=
  placeless_checkFrom 0 none schema

end Schema

namespace Content

theorem placeless_isPadded (content : Bytes) (policy : IntegerPolicy) :
    (isPadded content policy).Placeless := by
  unfold isPadded
  split
  · exact placeless_refuse fun _ => rfl
  · exact placeless_ok false
  · split <;> split
    · exact placeless_refuse fun _ => rfl
    · exact placeless_ok true
    · exact placeless_refuse fun _ => rfl
    · exact placeless_ok false

theorem placeless_lowBits (unused : UInt8) : (lowBits unused).Placeless := by
  unfold lowBits
  split
  · exact placeless_ok _
  · exact placeless_fault

theorem placeless_unusedBitCount (content : Bytes) : (unusedBitCount content).Placeless := by
  unfold unusedBitCount
  split
  · exact placeless_refuse fun _ => rfl
  · split
    · exact placeless_refuse fun _ => rfl
    · split
      · split
        · exact placeless_ok 0
        · exact placeless_refuse fun _ => rfl
      · refine (placeless_lowBits _).bind fun mask => ?_
        split
        · exact placeless_ok _
        · exact placeless_refuse fun _ => rfl

theorem placeless_readUnsigned (content : Bytes) (width : Nat) :
    (readUnsigned content width).Placeless := by
  unfold readUnsigned
  split
  · exact placeless_refuse fun _ => rfl
  · split
    · exact placeless_refuse fun _ => rfl
    · exact placeless_ok _

end Content

namespace Oid

theorem placeless_checkGroups (atStart : Bool) (content : Bytes) :
    (checkGroups atStart content).Placeless := by
  induction content generalizing atStart with
  | nil =>
    unfold checkGroups
    split
    · exact placeless_ok ()
    · exact placeless_refuse fun _ => rfl
  | cons b rest ih =>
    unfold checkGroups
    split
    · exact placeless_refuse fun _ => rfl
    · exact ih _

theorem placeless_checkContent (content : Bytes) : (checkContent content).Placeless := by
  unfold checkContent
  split
  · exact placeless_refuse fun _ => rfl
  · exact placeless_checkGroups true content

theorem placeless_octetSum (content : Bytes) : (octetSum content).Placeless := by
  unfold octetSum
  dsimp only
  split
  · exact placeless_ok _
  · exact placeless_fault

theorem placeless_verify (category : Category) (sum : Nat) (content : Bytes) :
    (category.verify sum content).Placeless := by
  unfold Category.verify
  split
  · exact placeless_ok ()
  · exact placeless_refuse fun _ => rfl

end Oid

end DerTemplate
