import TempoRollup.Lib.Positional

set_option relaxedAutoImplicit false
set_option autoImplicit false

/-!
# Base 58

Byte strings as texts of letters and digits that are not easily mixed up. The bytes are the digits
of a number in base 256, the characters those in base 58; a zero byte in front becomes the first
character.

## Main definitions

* `Base58.encode`, `Base58.decode`.

## Main results

* `Base58.decode_encode` — a byte string comes back from its text.
-/

namespace Base58

/-- The characters, in the order of the digits. -/
def alphabet : List Char := "123456789ABCDEFGHJKLMNPQRSTUVWXYZabcdefghijkmnopqrstuvwxyz".toList

/-- The character of a digit. -/
def charOf (digit : ℕ) : Char := alphabet.getD digit '1'

/-- The digit of a character. -/
def digitOf (c : Char) : Option ℕ := alphabet.idxOf? c

/-- The text of a byte string. -/
def encode (bytes : List UInt8) : String :=
  String.ofList ((Positional.rebase 256 58 (bytes.map UInt8.toNat)).map charOf)

/-- The byte string of a text, if all its characters are those of digits. -/
def decode (text : String) : Option (List UInt8) := do
  let digits ← text.toList.mapM digitOf
  pure ((Positional.rebase 58 256 digits).map UInt8.ofNat)

/-- The character of a digit is read back. -/
lemma digitOf_charOf {digit : ℕ} (h : digit < 58) : digitOf (charOf digit) = some digit := by
  have hall : ∀ digit < 58, digitOf (charOf digit) = some digit := by decide +kernel
  exact hall digit h

/-- The characters of digits are read back. -/
lemma mapM_digitOf {digits : List ℕ} (h : ∀ digit ∈ digits, digit < 58) :
    (digits.map charOf).mapM digitOf = some digits := by
  induction digits with
  | nil => rfl
  | cons digit digits ih =>
    obtain ⟨hdigit, hdigits⟩ := List.forall_mem_cons.1 h
    rw [List.map_cons, List.mapM_cons, digitOf_charOf hdigit, ih hdigits]
    rfl

/-- **A byte string comes back** from its text. -/
theorem decode_encode (bytes : List UInt8) : decode (encode bytes) = some bytes := by
  have hlt : ∀ digit ∈ Positional.rebase 256 58 (bytes.map UInt8.toNat), digit < 58 := by
    intro digit hmem
    rcases List.mem_append.1 hmem with hmem | hmem
    · rw [List.eq_of_mem_replicate hmem]
      decide
    · exact Positional.digits_lt (by decide) hmem
  have hbytes : ∀ digit ∈ bytes.map UInt8.toNat, digit < 256 := by
    intro digit hmem
    obtain ⟨byte, -, rfl⟩ := List.mem_map.1 hmem
    exact byte.toNat_lt
  rw [decode, encode, String.toList_ofList, mapM_digitOf hlt]
  change some _ = some _
  rw [Positional.rebase_rebase (by decide) hbytes, List.map_map]
  refine congrArg some ((List.map_congr_left fun byte _ => ?_).trans (List.map_id bytes))
  exact UInt8.ofNat_toNat

end Base58
