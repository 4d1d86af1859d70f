import DigTls.Effects.Ending
import DigTls.Peer.Identity
import DigTls.Text.Hexadecimal

/-! # The hex form of a peer id

The reader tests the length of the text in bytes, takes each byte for a Latin-1 character and
fills the id two digits at a time. On every text it ends without a panic, and it reads exactly
the 64-digit ones.
-/
namespace DigTls
open Endings Hexadecimal

def chunksOfTwo : Bytes → List Bytes
  | [] => []
  | [a] => [[a]]
  | a :: b :: rest => [a, b] :: chunksOfTwo rest

namespace PeerId

def fillFromChunks : List Bytes → ℕ → Octets 32 → Ending (Octets 32)
  | [], _, out => .value out
  | chunk :: chunks, i, out => do
    let first ← index chunk 0
    let hi ← .ofOption (toDigit (latin1 first))
    let second ← index chunk 1
    let lo ← .ofOption (toDigit (latin1 second))
    let out ← assign out i ((hi <<< 4) ||| lo).toUInt8
    fillFromChunks chunks (i + 1) out

def fromHex (hex : String) : Ending PeerId :=
  if (utf8 hex).length ≠ 64 then .none
  else do
    let out ← fillFromChunks (chunksOfTwo (utf8 hex)) 0 (List.Vector.replicate 32 0)
    return ⟨out⟩

/-- Neither unwrap of the writer panics. -/
theorem hexDigits_eq (b : UInt8) :
    [fromDigit (b >>> 4).toNat, fromDigit (b &&& 0x0f).toNat] = (hexDigits b).map some := fromDigit_nibbles b

theorem toHex_toList (id : PeerId) : id.toHex.toList = encode id.bytes.toList := String.toList_ofList

theorem toHex_injective : Function.Injective toHex := by
  intro a b h
  have hencode : encode a.bytes.toList = encode b.bytes.toList := by
    rw [← toHex_toList, ← toHex_toList, h]
  have hbytes := congrArg decode hencode
  rw [decode_encode, decode_encode] at hbytes
  obtain ⟨a⟩ := a
  obtain ⟨b⟩ := b
  exact congrArg mk (List.Vector.toList_injective (Option.some.inj hbytes))

/-- The loop fills the free places from the front with the bytes the text reads as, or stops at a
character that is no digit. -/
theorem fillFromChunks_eq {bytes pre rest : Bytes} {out : Octets 32} (hout : out.toList = pre ++ rest)
    (hlen : bytes.length = 2 * rest.length) :
    match decode (bytes.map latin1) with
    | none => fillFromChunks (chunksOfTwo bytes) pre.length out = .none
    | some read => ∃ filled, fillFromChunks (chunksOfTwo bytes) pre.length out = .value filled ∧
        filled.toList = pre ++ read := by
  induction bytes using chunksOfTwo.induct generalizing pre rest out with
  | case1 =>
    have hrest : rest = [] := by
      rw [List.length_nil] at hlen
      exact List.eq_nil_of_length_eq_zero (by omega)
    subst hrest
    exact ⟨out, rfl, hout⟩
  | case2 a =>
    simp only [List.length_singleton] at hlen
    omega
  | case3 a b bytes ih =>
    cases rest with
    | nil => simp at hlen
    | cons free rest =>
      have hlen' : bytes.length = 2 * rest.length := by
        simp only [List.length_cons] at hlen
        omega
      simp only [chunksOfTwo, fillFromChunks, index_zero, index_succ, Ending.value_bind, List.map_cons, decode]
      cases hhi : toDigit (latin1 a) with
      | none => rfl
      | some hi =>
        cases hlo : toDigit (latin1 b) with
        | none => rfl
        | some lo =>
          obtain ⟨out', hassign, hout'⟩ := assign_append (a := ((hi <<< 4) ||| lo).toUInt8) hout
          have hpre : out'.toList = (pre ++ [join hi lo]) ++ rest := by simp [hout', join]
          have hnext := ih hpre hlen'
          rw [List.length_append, List.length_singleton] at hnext
          simp only [Ending.ofOption_some, Ending.value_bind, hassign]
          cases hdec : decode (bytes.map latin1) with
          | none =>
            rw [hdec] at hnext
            exact hnext
          | some read =>
            rw [hdec] at hnext
            obtain ⟨filled, hfilled, hread⟩ := hnext
            exact ⟨filled, hfilled, by simp [hread]⟩

theorem fromHex_cases (hex : String) :
    (fromHex hex = .none ∧ ¬ ((utf8 hex).length = 64 ∧ (decode ((utf8 hex).map latin1)).isSome)) ∨
    ∃ id : PeerId, fromHex hex = .value id ∧ (utf8 hex).length = 64 ∧
      decode ((utf8 hex).map latin1) = some id.bytes.toList := by
  by_cases hlen : (utf8 hex).length = 64
  · have hzero : (List.Vector.replicate 32 (0 : UInt8)).toList = [] ++ List.replicate 32 0 := rfl
    have hfill := fillFromChunks_eq hzero (by rw [hlen, List.length_replicate])
    simp only [fromHex, hlen, ne_eq, not_true_eq_false, if_false]
    cases hdec : decode ((utf8 hex).map latin1) with
    | none =>
      simp only [hdec, List.length_nil] at hfill
      rw [hfill]
      exact Or.inl ⟨rfl, by simp⟩
    | some read =>
      simp only [hdec, List.length_nil, List.nil_append] at hfill
      obtain ⟨filled, hfilled, hread⟩ := hfill
      rw [hfilled]
      exact Or.inr ⟨⟨filled⟩, rfl, trivial, by rw [hread]⟩
  · exact Or.inl ⟨if_pos hlen, fun h => hlen h.1⟩

theorem fromHex_ne_panic (hex : String) : fromHex hex ≠ .panic := by
  rcases fromHex_cases hex with ⟨h, _⟩ | ⟨id, h, _⟩ <;> simp [h]

theorem fromHex_eq_value_iff {hex : String} {id : PeerId} : fromHex hex = .value id ↔
    (utf8 hex).length = 64 ∧ decode ((utf8 hex).map latin1) = some id.bytes.toList := by
  rcases fromHex_cases hex with ⟨h, hnot⟩ | ⟨⟨bytes⟩, h, hlen, hdec⟩
  · rw [h]
    refine iff_of_false (by simp) fun ⟨hlen, hdec⟩ => hnot ⟨hlen, by simp [hdec]⟩
  · obtain ⟨bytes'⟩ := id
    simp [h, hlen, hdec, List.Vector.toList_injective.eq_iff]

/-- Exactly 64 ASCII hex digits, of either case. -/
def IsHexText (hex : String) : Prop := hex.length = 64 ∧ ∀ c ∈ hex.toList, IsDigit c

/-- Exactly 64 lowercase hex digits. -/
def IsLowerHexText (hex : String) : Prop := hex.length = 64 ∧ ∀ c ∈ hex.toList, IsLowerDigit c

/-- Read as Latin-1 characters, the bytes of a text are digits only if its characters are. -/
theorem isHexText_iff {hex : String} : IsHexText hex ↔
    (utf8 hex).length = 64 ∧ (decode ((utf8 hex).map latin1)).isSome := by
  rw [decode_isSome_iff]
  constructor
  · rintro ⟨hlen, hdigits⟩
    have hmap := map_latin1_utf8 fun c hc => isDigit_ascii (hdigits c hc)
    have hbytes : (utf8 hex).length = 64 := by rw [← List.length_map latin1, hmap, String.length_toList, hlen]
    exact ⟨hbytes, by rw [List.length_map, hbytes]; decide, by rwa [hmap]⟩
  · rintro ⟨hlen, _, hdigits⟩
    have hascii : ∀ b ∈ utf8 hex, b.toNat < 128 := by
      intro b hb
      rw [← toNat_latin1]
      exact isDigit_ascii (hdigits _ (List.mem_map_of_mem hb))
    have hmap := map_latin1_utf8 (ascii_of_utf8 hascii)
    refine ⟨?_, ?_⟩
    · rw [← String.length_toList, ← hmap, List.length_map, hlen]
    · rwa [← hmap]

theorem IsLowerHexText.isHexText {hex : String} (h : IsLowerHexText hex) : IsHexText hex :=
  ⟨h.1, fun c hc => (h.2 c hc).isDigit⟩

theorem toHex_isLowerHexText (id : PeerId) : IsLowerHexText id.toHex := by
  refine ⟨?_, ?_⟩
  · rw [← String.length_toList, toHex_toList, length_encode, id.bytes.toList_length]
  · rw [toHex_toList]
    exact isLowerDigit_encode

/-- A text that reads as an id is, but for the case of its digits, the id's own. -/
theorem toHex_of_fromHex {hex : String} {id : PeerId} (h : fromHex hex = .value id) :
    id.toHex = hex.toLower := by
  obtain ⟨hlen, hdec⟩ := fromHex_eq_value_iff.mp h
  have hdigits := (isHexText_iff.mpr ⟨hlen, by simp [hdec]⟩).2
  rw [map_latin1_utf8 fun c hc => isDigit_ascii (hdigits c hc)] at hdec
  apply String.toList_injective
  rw [toHex_toList, encode_of_decode hdec, toList_toLower]

theorem fromHex_isHexText_iff {hex : String} : (∃ id, fromHex hex = .value id) ↔ IsHexText hex := by
  rw [isHexText_iff]
  rcases fromHex_cases hex with ⟨h, hnot⟩ | ⟨id, h, hlen, hdec⟩
  · exact iff_of_false (by simp [h]) hnot
  · exact iff_of_true ⟨id, h⟩ ⟨hlen, by simp [hdec]⟩

/-- A text of 64 bytes that are not its characters. -/
example : fromHex (String.ofList (List.replicate 32 'é')) = .none := by decide +kernel

theorem toLower_isLowerHexText {hex : String} (h : IsLowerHexText hex) : hex.toLower = hex := by
  apply String.toList_injective
  rw [toList_toLower, List.map_congr_left fun c hc => toLower_isLowerDigit (h.2 c hc)]
  exact List.map_id' _

theorem fromHex_toHex (id : PeerId) : fromHex id.toHex = .value id := by
  obtain ⟨id', h⟩ := fromHex_isHexText_iff.mpr (toHex_isLowerHexText id).isHexText
  have hsame : id'.toHex = id.toHex := by
    rw [toHex_of_fromHex h, toLower_isLowerHexText (toHex_isLowerHexText id)]
  rw [h, toHex_injective hsame]

/-- The hex codec is exact: an id is written as 64 lowercase digits that read back; every text is
read without a panic, as an id just if it consists of 64 digits, and these, in lower case, are the
digits of that id; so ids and lowercase texts correspond one to one. -/
theorem hex_codec_exact :
    (∀ id : PeerId, IsLowerHexText id.toHex ∧ fromHex id.toHex = .value id) ∧
    (∀ hex, fromHex hex ≠ .panic ∧ ((∃ id, fromHex hex = .value id) ↔ IsHexText hex) ∧
      ∀ id, fromHex hex = .value id → id.toHex = hex.toLower) ∧
    Set.BijOn toHex Set.univ {hex | IsLowerHexText hex} := by
  refine ⟨fun id => ⟨toHex_isLowerHexText id, fromHex_toHex id⟩, ?_, ?_, toHex_injective.injOn, ?_⟩
  · exact fun hex => ⟨fromHex_ne_panic hex, fromHex_isHexText_iff, fun id => toHex_of_fromHex⟩
  · exact fun id _ => toHex_isLowerHexText id
  · intro hex hlower
    obtain ⟨id, h⟩ := fromHex_isHexText_iff.mpr hlower.isHexText
    exact ⟨id, trivial, by rw [toHex_of_fromHex h, toLower_isLowerHexText hlower]⟩

end PeerId
end DigTls
