import Mathlib.Data.List.Basic

/-! # Hexadecimal text

Bytes written as two digits each, high nibble first, and read back from digits of either case.
Text comes as UTF-8: a byte taken for a Latin-1 character is a digit only where the text has that
digit, so reading the bytes of a text one by one is reading its characters.
-/
namespace Hexadecimal

def utf8 (s : String) : List UInt8 := s.toByteArray.data.toList

def latin1 (b : UInt8) : Char := Char.ofNat b.toNat

theorem utf8_eq (s : String) : utf8 s = s.toList.flatMap String.utf8EncodeChar := by
  rw [utf8, ← String.utf8Encode_toList, List.utf8Encode, List.toList_data_toByteArray]

theorem forall_byte {P : UInt8 → Prop} (h : ∀ n < 256, P (UInt8.ofNat n)) (b : UInt8) : P b := by
  have hp := h b.toNat b.toNat_lt
  rwa [UInt8.ofNat_toNat] at hp

theorem toNat_latin1 (b : UInt8) : (latin1 b).toNat = b.toNat :=
  forall_byte (P := fun b => (latin1 b).toNat = b.toNat) (by decide +kernel) b

theorem utf8EncodeChar_ascii {c : Char} (h : c.toNat < 128) : String.utf8EncodeChar c = [c.toUInt8] := by
  apply String.utf8EncodeChar_eq_singleton
  rw [Char.utf8Size_eq_one_iff, UInt32.le_iff_toNat_le]
  exact Nat.le_of_lt_succ h

theorem latin1_toUInt8 {c : Char} (h : c.toNat < 128) : latin1 c.toUInt8 = c := by
  have hval : c.toUInt8.toNat = c.toNat := by
    rw [Char.toUInt8, UInt32.toNat_toUInt8]
    exact Nat.mod_eq_of_lt (Nat.lt_trans h (by decide))
  rw [latin1, hval, Char.ofNat_toNat]

theorem utf8EncodeChar_not_ascii {c : Char} (h : ¬ c.toNat < 128) :
    ∃ b ∈ String.utf8EncodeChar c, ¬ b.toNat < 128 := by
  have hlast : ¬ (c.val.toUInt8 &&& 0x3f ||| 0x80).toNat < 128 := by
    rw [UInt8.toNat_or]
    exact Nat.not_lt.mpr Nat.right_le_or
  refine ⟨_, ?_, hlast⟩
  rcases Char.utf8Size_eq c with h1 | h2 | h3 | h4
  · rw [Char.utf8Size_eq_one_iff, UInt32.le_iff_toNat_le] at h1
    exact absurd (Nat.lt_succ_of_le h1) h
  · simp [String.utf8EncodeChar_eq_cons_cons h2]
  · simp [String.utf8EncodeChar_eq_cons_cons_cons h3]
  · simp [String.utf8EncodeChar_eq_cons_cons_cons_cons h4]

/-- The bytes of an ASCII text are its characters. -/
theorem map_latin1_utf8 {s : String} (h : ∀ c ∈ s.toList, c.toNat < 128) :
    (utf8 s).map latin1 = s.toList := by
  rw [utf8_eq]
  generalize s.toList = cs at h
  induction cs with
  | nil => rfl
  | cons c cs ih =>
    obtain ⟨hc, hcs⟩ := List.forall_mem_cons.mp h
    rw [List.flatMap_cons, utf8EncodeChar_ascii hc, List.map_append, ih hcs]
    simp [latin1_toUInt8 hc]

/-- A text whose bytes are all ASCII is an ASCII text. -/
theorem ascii_of_utf8 {s : String} (h : ∀ b ∈ utf8 s, b.toNat < 128) : ∀ c ∈ s.toList, c.toNat < 128 := by
  intro c hc
  by_contra hnot
  obtain ⟨b, hb, hbig⟩ := utf8EncodeChar_not_ascii hnot
  rw [utf8_eq] at h
  exact hbig (h b (List.mem_flatMap.mpr ⟨c, hc, hb⟩))

theorem toList_toLower (s : String) : s.toLower.toList = s.toList.map Char.toLower := String.toList_map

/-- The value of a hexadecimal digit of either case, as `char::to_digit(16)`. -/
def toDigit (c : Char) : Option UInt32 :=
  if '0' ≤ c ∧ c ≤ '9' then some (c.val - '0'.val)
  else if 'a' ≤ c ∧ c ≤ 'f' then some (c.val - 'a'.val + 10)
  else if 'A' ≤ c ∧ c ≤ 'F' then some (c.val - 'A'.val + 10)
  else none

/-- The lowercase digit of a value, as `char::from_digit(16)`. -/
def fromDigit (d : ℕ) : Option Char := if d < 16 then some (Nat.digitChar d) else none

def IsDigit (c : Char) : Prop :=
  ('0' ≤ c ∧ c ≤ '9') ∨ ('a' ≤ c ∧ c ≤ 'f') ∨ ('A' ≤ c ∧ c ≤ 'F')

instance (c : Char) : Decidable (IsDigit c) := inferInstanceAs (Decidable (_ ∨ _))

def IsLowerDigit (c : Char) : Prop := ('0' ≤ c ∧ c ≤ '9') ∨ ('a' ≤ c ∧ c ≤ 'f')

instance (c : Char) : Decidable (IsLowerDigit c) := inferInstanceAs (Decidable (_ ∨ _))

theorem IsLowerDigit.isDigit {c : Char} (h : IsLowerDigit c) : IsDigit c := h.imp_right Or.inl

theorem isDigit_ascii {c : Char} (h : IsDigit c) : c.toNat < 128 := by
  rcases h with ⟨_, h⟩ | ⟨_, h⟩ | ⟨_, h⟩ <;> exact Nat.lt_of_le_of_lt (UInt32.le_iff_toNat_le.mp h) (by decide)

theorem forall_isDigit {P : Char → Prop} (h : ∀ n < 128, IsDigit (Char.ofNat n) → P (Char.ofNat n))
    {c : Char} (hc : IsDigit c) : P c := by
  have hp := h c.toNat (isDigit_ascii hc)
  rw [Char.ofNat_toNat] at hp
  exact hp hc

theorem toLower_isLowerDigit {c : Char} (h : IsLowerDigit c) : c.toLower = c := by
  have hall : ∀ n < 128, IsDigit (Char.ofNat n) → IsLowerDigit (Char.ofNat n) →
      (Char.ofNat n).toLower = Char.ofNat n := by decide +kernel
  exact forall_isDigit (P := fun c => IsLowerDigit c → c.toLower = c) hall h.isDigit h

theorem toDigit_isSome_iff {c : Char} : (toDigit c).isSome ↔ IsDigit c := by
  unfold toDigit IsDigit
  split_ifs <;> simp_all

/-- A digit's value is below 16, and its lowercase form is the digit of that value. -/
theorem toDigit_spec {c : Char} {d : UInt32} (h : toDigit c = some d) :
    d.toNat < 16 ∧ Nat.digitChar d.toNat = c.toLower := by
  have hc : IsDigit c := toDigit_isSome_iff.mp (by simp [h])
  have hall : ∀ n < 128, IsDigit (Char.ofNat n) → (toDigit (Char.ofNat n)).all fun d =>
      d.toNat < 16 ∧ Nat.digitChar d.toNat = (Char.ofNat n).toLower := by
    decide
  have hd := forall_isDigit (P := fun c => (toDigit c).all fun d =>
      d.toNat < 16 ∧ Nat.digitChar d.toNat = c.toLower) hall hc
  rw [h] at hd
  simpa using hd

def digits (b : UInt8) : List Char := [Nat.digitChar (b >>> 4).toNat, Nat.digitChar (b &&& 0x0f).toNat]

def join (hi lo : UInt32) : UInt8 := ((hi <<< 4) ||| lo).toUInt8

def encode (bytes : List UInt8) : List Char := bytes.flatMap digits

def decode : List Char → Option (List UInt8)
  | [] => some []
  | [_] => none
  | a :: b :: rest => do
    let hi ← toDigit a
    let lo ← toDigit b
    let bytes ← decode rest
    return join hi lo :: bytes

/-- The digits of a byte are the digits of its nibbles, whose values read back as the byte. -/
theorem digits_spec (b : UInt8) : ∃ a a' hi lo, digits b = [a, a'] ∧ IsLowerDigit a ∧ IsLowerDigit a' ∧
    toDigit a = some hi ∧ toDigit a' = some lo ∧ join hi lo = b := by
  have hall : ∀ n < 256, IsLowerDigit (Nat.digitChar (UInt8.ofNat n >>> 4).toNat) ∧
      IsLowerDigit (Nat.digitChar (UInt8.ofNat n &&& 0x0f).toNat) ∧
      (toDigit (Nat.digitChar (UInt8.ofNat n >>> 4).toNat)).bind (fun hi =>
        (toDigit (Nat.digitChar (UInt8.ofNat n &&& 0x0f).toNat)).map (join hi)) = some (UInt8.ofNat n) := by
    decide +kernel
  obtain ⟨ha, ha', hjoin⟩ := forall_byte (P := fun b => IsLowerDigit (Nat.digitChar (b >>> 4).toNat) ∧
      IsLowerDigit (Nat.digitChar (b &&& 0x0f).toNat) ∧
      (toDigit (Nat.digitChar (b >>> 4).toNat)).bind (fun hi =>
        (toDigit (Nat.digitChar (b &&& 0x0f).toNat)).map (join hi)) = some b) hall b
  obtain ⟨hi, hhi, hrest⟩ := Option.bind_eq_some_iff.mp hjoin
  obtain ⟨lo, hlo, hb⟩ := Option.map_eq_some_iff.mp hrest
  exact ⟨_, _, hi, lo, rfl, ha, ha', hhi, hlo, hb⟩

/-- Both digits of a byte exist, so writing a byte never fails. -/
theorem fromDigit_nibbles (b : UInt8) :
    [fromDigit (b >>> 4).toNat, fromDigit (b &&& 0x0f).toNat] = (digits b).map some := by
  have hall : ∀ n < 256, (UInt8.ofNat n >>> 4).toNat < 16 ∧ (UInt8.ofNat n &&& 0x0f).toNat < 16 := by
    decide +kernel
  obtain ⟨hhi, hlo⟩ := forall_byte (P := fun b => (b >>> 4).toNat < 16 ∧ (b &&& 0x0f).toNat < 16) hall b
  simp only [fromDigit, digits, if_pos hhi, if_pos hlo, List.map_cons, List.map_nil]

theorem join_nibbles {hi lo : UInt32} (hhi : hi.toNat < 16) (hlo : lo.toNat < 16) :
    digits (join hi lo) = [Nat.digitChar hi.toNat, Nat.digitChar lo.toNat] := by
  have hall : ∀ n < 16, ∀ m < 16, digits (join (UInt32.ofNat n) (UInt32.ofNat m)) =
      [Nat.digitChar n, Nat.digitChar m] := by decide +kernel
  have h := hall hi.toNat hhi lo.toNat hlo
  rwa [UInt32.ofNat_toNat, UInt32.ofNat_toNat] at h

theorem length_encode (bytes : List UInt8) : (encode bytes).length = 2 * bytes.length := by
  induction bytes with
  | nil => rfl
  | cons b bytes ih =>
    rw [encode, List.flatMap_cons, List.length_append, ← encode, ih]
    simp [digits]
    omega

theorem isLowerDigit_encode {bytes : List UInt8} : ∀ c ∈ encode bytes, IsLowerDigit c := by
  intro c hc
  obtain ⟨b, _, hb⟩ := List.mem_flatMap.mp hc
  obtain ⟨a, a', _, _, hdigits, ha, ha', _⟩ := digits_spec b
  rw [hdigits] at hb
  rcases List.mem_pair.mp hb with rfl | rfl
  · exact ha
  · exact ha'

theorem decode_encode (bytes : List UInt8) : decode (encode bytes) = some bytes := by
  induction bytes with
  | nil => rfl
  | cons b bytes ih =>
    obtain ⟨a, a', hi, lo, hdigits, _, _, hhi, hlo, hjoin⟩ := digits_spec b
    rw [encode, List.flatMap_cons, hdigits, ← encode]
    simp [decode, hhi, hlo, ih, hjoin]

/-- What reads back was, but for the case of its digits, written from the bytes read. -/
theorem encode_of_decode {cs : List Char} {bytes : List UInt8} (h : decode cs = some bytes) :
    encode bytes = cs.map Char.toLower := by
  induction cs using decode.induct generalizing bytes with
  | case1 =>
    cases h
    rfl
  | case2 => cases h
  | case3 a b rest ih =>
    obtain ⟨hi, hhi, h⟩ := Option.bind_eq_some_iff.mp h
    obtain ⟨lo, hlo, h⟩ := Option.bind_eq_some_iff.mp h
    obtain ⟨bs, hbs, h⟩ := Option.bind_eq_some_iff.mp h
    cases h
    obtain ⟨hhi16, hhic⟩ := toDigit_spec hhi
    obtain ⟨hlo16, hloc⟩ := toDigit_spec hlo
    rw [encode, List.flatMap_cons, join_nibbles hhi16 hlo16, hhic, hloc, ← encode, ih hbs]
    rfl

theorem decode_isSome_iff {cs : List Char} :
    (decode cs).isSome ↔ 2 ∣ cs.length ∧ ∀ c ∈ cs, IsDigit c := by
  induction cs using decode.induct with
  | case1 => simp [decode]
  | case2 a => simp [decode]
  | case3 a b rest ih =>
    have hlen : 2 ∣ (a :: b :: rest).length ↔ 2 ∣ rest.length := by
      simp only [List.length_cons]
      omega
    rw [hlen, List.forall_mem_cons, List.forall_mem_cons, ← toDigit_isSome_iff, ← toDigit_isSome_iff]
    cases ha : toDigit a with
    | none => simp [decode, ha]
    | some hi =>
      cases hb : toDigit b with
      | none => simp [decode, ha, hb]
      | some lo =>
        cases hd : decode rest with
        | none => simpa [decode, ha, hb, hd] using ih
        | some bytes => simpa [decode, ha, hb, hd] using ih

end Hexadecimal
