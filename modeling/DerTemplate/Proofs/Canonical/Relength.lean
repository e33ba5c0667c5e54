import DerTemplate.Proofs.Canonical.Tree

namespace DerTemplate

namespace Canonical

open Header (Identifier IsLength lengthOctets lengthSize)

/-- The second octets are the first with the shortest length octets in some of their items. -/
inductive Relengthed : Bytes → Bytes → Prop where
  | same (part : Bytes) : Relengthed part part
  | item (identifier : Identifier) (length : Bytes) {content shorter next behind : Bytes}
    (hlength : IsLength length content.length) (hcontent : Relengthed content shorter)
    (hprimitive : identifier.first.isConstructed = false → shorter = content)
    (hnext : Relengthed next behind) :
    Relengthed (identifier.octets ++ (length ++ (content ++ next)))
      (identifier.octets ++ (lengthOctets shorter.length ++ (shorter ++ behind)))

theorem Relengthed.length_le {part other : Bytes} (h : Relengthed part other) :
    other.length ≤ part.length := by
  induction h with
  | same part => exact Nat.le_refl _
  | item identifier length hlength hcontent hprimitive hnext ihContent ihNext =>
    have hmono := Header.lengthSize_mono ihContent
    have hshortest := Header.lengthSize_le hlength
    simp only [List.length_append, Header.length_lengthOctets]
    omega

namespace Ber

def Definite : Ber → Prop
  | nil => True
  | primitive _ _ _ next => next.Definite
  | nested _ length inner next => length.isSome = true ∧ inner.Definite ∧ next.Definite
  | string .. => False

theorem relengthed_of_definite {tree : Ber} (hvalid : tree.Valid) (h : tree.Definite) :
    Relengthed tree.octets tree.der := by
  induction tree with
  | nil => exact .same []
  | primitive identifier length content next ih =>
    obtain ⟨_, hlength, hnext⟩ := hvalid
    have hitem := Relengthed.item identifier length hlength (.same content) (fun _ => rfl)
      (ih hnext h)
    rw [octets, der, whole_definite, shortest]
    simpa only [List.append_assoc] using hitem
  | nested identifier length inner next ihInner ihNext =>
    obtain ⟨⟨hconstructed, _⟩, hlength, hinner, hnext⟩ := hvalid
    obtain ⟨hsome, hdefinite, hbehind⟩ := h
    obtain ⟨length, rfl⟩ := Option.isSome_iff_exists.mp hsome
    have hprimitive : identifier.first.isConstructed = false → inner.der = inner.octets := by
      rw [hconstructed]
      intro h
      cases h
    have hitem := Relengthed.item identifier length (hlength length rfl) (ihInner hinner hdefinite)
      hprimitive (ihNext hnext hbehind)
    rw [octets, der, whole_definite, shortest]
    simpa only [List.append_assoc] using hitem
  | string identifier length fragments next ih => exact h.elim

end Ber

end Canonical

end DerTemplate
