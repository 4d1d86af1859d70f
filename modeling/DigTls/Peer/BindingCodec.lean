import DigTls.Effects.Ending
import DigTls.Peer.Binding

/-! # The codec of the binding extension

The parser cuts the key and the signature out of the value by fixed ranges. It inverts the
encoder in both directions: it reads every encoded value, and nothing else.
-/
namespace DigTls
open Endings

/-- The parser with its slices, each of which panics when it leaves the value. -/
def parseSlices (value : Bytes) : Ending CertBlsBinding := do
  let version ← .ofOption value.head?
  if version ≠ bindingVersionV1 ∨ value.length ≠ bindingV1Len then .none
  else
    let key ← slice value 1 49
    let blsPub ← copyFromSlice 48 key
    let sig ← slice value 49 145
    let blsSig ← copyFromSlice 96 sig
    return ⟨blsPub, blsSig⟩

/-- No slice leaves the value, and each has the length of the array it is copied into. -/
theorem parseSlices_eq (value : Bytes) : parseSlices value = .ofOption (parseBindingExtensionValue value) := by
  unfold parseSlices
  by_cases h : value.head? = some bindingVersionV1 ∧ value.length = bindingV1Len
  · obtain ⟨hver, hlen⟩ := h
    have hlen' : value.length = 145 := hlen
    have hkey : slice value 1 49 = .value (copySlice value 1 48 (by omega)).toList :=
      slice_eq_value (by decide) (by omega)
    have hsig : slice value 49 145 = .value (copySlice value 49 96 (by omega)).toList :=
      slice_eq_value (by decide) (by omega)
    have hparse : parseBindingExtensionValue value =
        some ⟨copySlice value 1 48 (by omega), copySlice value 49 96 (by omega)⟩ := dif_pos ⟨hver, hlen⟩
    rw [hparse, hver, hkey, hsig]
    simp [hlen, copyFromSlice_toList]
  · have hparse : parseBindingExtensionValue value = none := dif_neg h
    rw [hparse]
    cases hver : value.head? with
    | none => rfl
    | some version =>
      rw [hver, Option.some.injEq, not_and_or] at h
      simp only [Ending.ofOption_some, Ending.value_bind, ne_eq, if_pos h]
      rfl

theorem parse_encode (blsPub : Octets 48) (blsSig : Octets 96) :
    parseBindingExtensionValue (encodeBindingExtensionValue blsPub blsSig) = some ⟨blsPub, blsSig⟩ := by
  have hkey := blsPub.toList_length
  have hsig := blsSig.toList_length
  have hlen : (encodeBindingExtensionValue blsPub blsSig).length = bindingV1Len := by
    simp [encodeBindingExtensionValue, hkey, hsig, bindingV1Len]
  unfold parseBindingExtensionValue
  rw [dif_pos ⟨rfl, hlen⟩]
  congr 2
  · exact Subtype.ext (List.take_left' hkey)
  · apply Subtype.ext
    change (((bindingVersionV1 :: (blsPub.toList ++ blsSig.toList)).drop (48 + 1)).take 96) = blsSig.toList
    rw [List.drop_succ_cons, List.drop_left' hkey, List.take_of_length_le hsig.le]

/-- What parses is the encoding of what it parses to: the version, 48 bytes and 96 bytes. -/
theorem eq_encode_of_parse {value : Bytes} {binding : CertBlsBinding}
    (h : parseBindingExtensionValue value = some binding) :
    value = encodeBindingExtensionValue binding.blsPub binding.blsSig := by
  unfold parseBindingExtensionValue at h
  split_ifs at h with hv
  obtain ⟨hver, hlen⟩ := hv
  have hlen' : value.length = 145 := hlen
  cases h
  cases value with
  | nil => cases hver
  | cons version rest =>
    cases hver
    have hrest : rest.length = 144 := by simpa using hlen'
    have hsig : (rest.drop 48).take 96 = rest.drop 48 := List.take_of_length_le (by simp [hrest])
    change _ = bindingVersionV1 :: (rest.take 48 ++ (rest.drop 48).take 96)
    rw [hsig, List.take_append_drop]

/-- The codec is exact: each value read is the one encoding of what it reads as, nothing else reads,
and no input makes a slice leave the value. -/
theorem binding_codec_exact :
    (∀ blsPub blsSig,
      parseBindingExtensionValue (encodeBindingExtensionValue blsPub blsSig) = some ⟨blsPub, blsSig⟩) ∧
    (∀ value binding, parseBindingExtensionValue value = some binding ↔
      value = encodeBindingExtensionValue binding.blsPub binding.blsSig) ∧
    (∀ value value' binding, parseBindingExtensionValue value = some binding ∧
      parseBindingExtensionValue value' = some binding → value = value') ∧
    (∀ value, parseSlices value = .ofOption (parseBindingExtensionValue value) ∧ parseSlices value ≠ .panic) ∧
    ∀ value, parseBindingExtensionValue value = none ↔
      ∀ blsPub blsSig, value ≠ encodeBindingExtensionValue blsPub blsSig := by
  have hiff : ∀ value binding, parseBindingExtensionValue value = some binding ↔
      value = encodeBindingExtensionValue binding.blsPub binding.blsSig := by
    intro value binding
    constructor
    · exact eq_encode_of_parse
    · rintro rfl
      exact parse_encode _ _
  refine ⟨parse_encode, hiff, ?_, ?_, ?_⟩
  · rintro value value' binding ⟨h, h'⟩
    rw [eq_encode_of_parse h, eq_encode_of_parse h']
  · intro value
    rw [parseSlices_eq]
    exact ⟨rfl, Ending.ofOption_ne_panic _⟩
  · intro value
    rw [Option.eq_none_iff_forall_ne_some]
    constructor
    · intro hnone blsPub blsSig hvalue
      exact hnone ⟨blsPub, blsSig⟩ ((hiff value _).mpr hvalue)
    · intro hne binding hparse
      exact hne _ _ (eq_encode_of_parse hparse)

end DigTls
