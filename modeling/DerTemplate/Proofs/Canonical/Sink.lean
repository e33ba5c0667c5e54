import DerTemplate.Canonical.Output
import DerTemplate.Proofs.Bytes.Window

namespace DerTemplate

theorem Bytes.overlay_overlay {buffer a b : Bytes} {pos : Nat} (h : pos ≤ buffer.length) :
    (buffer.overlay pos a).overlay (pos + a.length) b = buffer.overlay pos (a ++ b) := by
  have htake : (buffer.take pos).length = pos := by
    rw [List.length_take]
    omega
  have hfront : (buffer.take pos ++ a).length = pos + a.length := by rw [List.length_append, htake]
  rw [overlay, overlay, overlay, List.take_left' hfront, List.length_append, ← List.drop_drop,
    List.drop_left' hfront, List.drop_drop]
  simp only [List.append_assoc, Nat.add_assoc]

theorem Bytes.overlay_nil (buffer : Bytes) (pos : Nat) : buffer.overlay pos [] = buffer := by
  rw [overlay, List.append_nil, List.length_nil, Nat.add_zero, List.take_append_drop]

namespace Canonical.Sink

variable {sink : Sink} {input bytes part : Bytes} {idx : Nat}

def append (sink : Sink) (bytes : Bytes) : Sink :=
  ⟨sink.buffer.map fun buffer => buffer.overlay sink.pos bytes, sink.pos + bytes.length⟩

structure Fits (sink : Sink) (size : Nat) : Prop where
  word : sink.pos + size < wordLimit
  room : ∀ buffer, sink.buffer = some buffer → sink.pos + size ≤ buffer.length

theorem Fits.split {a b : Bytes} (h : sink.Fits (a ++ b).length) :
    sink.Fits a.length ∧ (sink.append a).Fits b.length := by
  have hword := h.word
  rw [List.length_append] at hword
  refine ⟨⟨by omega, fun buffer hbuffer => ?_⟩, ⟨by dsimp only [append]; omega,
    fun buffer hbuffer => ?_⟩⟩
  · have hroom := h.room buffer hbuffer
    rw [List.length_append] at hroom
    omega
  · obtain ⟨before, hbefore, rfl⟩ := Option.map_eq_some_iff.mp hbuffer
    have hroom := h.room before hbefore
    rw [List.length_append] at hroom
    rw [Bytes.length_overlay (by omega)]
    dsimp only [append]
    omega

theorem append_append {a b : Bytes} (h : sink.Fits a.length) :
    (sink.append a).append b = sink.append (a ++ b) := by
  obtain ⟨buffer, pos⟩ := sink
  have hpos : ∀ bytes, buffer = some bytes → pos ≤ bytes.length := fun bytes hbytes =>
    Nat.le_of_add_right_le (h.room bytes hbytes)
  rw [append, append, append, List.length_append]
  cases buffer with
  | none => rw [Nat.add_assoc]; rfl
  | some bytes =>
    dsimp only [Option.map_some]
    rw [Bytes.overlay_overlay (hpos bytes rfl), Nat.add_assoc]

theorem append_nil (sink : Sink) : sink.append [] = sink := by
  obtain ⟨buffer, pos⟩ := sink
  cases buffer with
  | none => rfl
  | some bytes => simp only [append, Option.map_some, Bytes.overlay_nil, List.length_nil, Nat.add_zero]

theorem put_eq (h : sink.Fits bytes.length) : sink.put bytes = .ok (sink.append bytes) := by
  obtain ⟨buffer, pos⟩ := sink
  have hword := h.word
  rw [put, Word.add, if_pos hword, Outcome.leaving_ok, ok_bind]
  cases buffer with
  | none => rfl
  | some buffer =>
    dsimp only
    rw [if_pos (h.room buffer rfl)]
    rfl

theorem copy_eq (hinput : input.Holds idx part) (h : sink.Fits part.length) :
    sink.copy input idx (idx + part.length) = .ok (sink.append part) := by
  rw [copy, hinput.slice, Outcome.leaving_ok, ok_bind, put_eq h]

end Canonical.Sink

end DerTemplate
