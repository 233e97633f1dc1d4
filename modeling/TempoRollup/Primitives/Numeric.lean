import Mathlib.Data.List.DropRight
import TempoRollup.Element
import TempoRollup.Lib.Codec
import TempoRollup.Lib.Exec
import TempoRollup.Lib.Positional

set_option relaxedAutoImplicit false
set_option autoImplicit false

/-!
# Elements in the database

`zk-primitives/src/element/diesel_pg.rs`: elements are stored as `numeric` values of Postgres, whose
digits are those in base 10000.

## Main definitions

* `Element.toSql`, `Element.fromSql` — the conversions.
* `Postgres.Numeric`, `Postgres.numericRecv`, `Postgres.stripVar`, `Postgres.numericSend` — what the
  database does with a value that it is sent: it reads it, strips zeros at both ends, and sends it
  back.

## Main results

* `Element.toSql_eq` — an element is sent as its digits.
* `Postgres.Numeric.Whole.stripVar` — to strip zeros keeps the number.
* `Element.fromSql_numericSend` — a number below `2 ^ 256` is read back without overflow.
* `Element.fromSql_toSql` — so an element comes back from the database.

## Design

Arithmetic on 256 bits that overflows is a panic, so that a call which returns has not overflowed.
The power is that of the library of 256-bit numbers: by squaring, with the last multiplication on
its own.
-/

open Exec

namespace TempoRollup

/-! ## The conversions -/

namespace Element

/-- `str::parse::<u16>`. -/
def parseU16 (s : List Char) : Option ℕ :=
  let digits := if s.head? = some '+' then s.tail else s
  if digits.isEmpty then none
  else
    digits.foldlM (fun n c =>
      if c.isDigit ∧ n * 10 + Positional.digitOf c < 2 ^ 16 then
        some (n * 10 + Positional.digitOf c)
      else none) 0

/-- The digits that the loop of `to_sql` pushes: in base 10000, the last one first. -/
def pushDigits (remaining : List Char) : Outcome String (List ℕ) :=
  if _h : 4 < remaining.length then
    match parseU16 (remaining.drop (remaining.length - 4)) with
    | none => .err "Invalid numeric conversion"
    | some digit => do
      let digits ← pushDigits (remaining.take (remaining.length - 4))
      pure (digit :: digits)
  else if remaining.isEmpty then pure []
  else
    match parseU16 remaining with
    | none => .err "Invalid numeric conversion"
    | some digit => pure [digit]
termination_by remaining.length
decreasing_by
  rw [List.length_take]
  omega

/-- `to_sql`. -/
def toSql (e : Element) : Outcome String (List UInt8) := do
  let digits ← pushDigits (Nat.toDigits 10 e.toNat)
  let digits := digits.reverse
  if 2 ^ 16 ≤ digits.length then .err "Number too large for PostgreSQL numeric format"
  else if digits.length = 0 then .panic
  else
    pure (Codec.toBE 2 digits.length ++ (Codec.toBE 2 (digits.length - 1) ++ ([0, 0] ++ ([0, 0] ++
      digits.flatMap (Codec.toBE 2)))))

variable {ε : Type}

/-- A product of 256 bits. -/
def mulU256 (a b : Element) : Outcome ε Element :=
  if a.toNat * b.toNat < 2 ^ 256 then .ok (a * b) else .panic

/-- A sum of 256 bits. -/
def addU256 (a b : Element) : Outcome ε Element :=
  if a.toNat + b.toNat < 2 ^ 256 then .ok (a + b) else .panic

/-- The loop of `U256::pow`. -/
def powLoop (acc base : Element) (exp : ℕ) : Outcome ε Element :=
  if _h : 1 < exp then do
    let acc ← (if exp % 2 = 1 then mulU256 acc base else pure acc : Outcome ε Element)
    let base ← mulU256 base base
    powLoop acc base (exp / 2)
  else if exp = 1 then mulU256 acc base
  else pure acc

/-- `U256::pow`. -/
def powU256 (base : Element) (exp : ℕ) : Outcome ε Element := powLoop 1 base exp

/-- The 16 bits at an index. -/
def u16At (bytes : List UInt8) (start : ℕ) : ℕ := Codec.ofBE ((bytes.drop start).take 2)

/-- The loop of `from_sql` over the digits. -/
def readDigits (bytes : List UInt8) (ndigits : ℕ) : Outcome String Element :=
  (List.range ndigits).foldlM (fun result i =>
    if 8 + i * 2 + 2 > bytes.length then .err "Invalid numeric format: truncated digits"
    else do
      let result ← mulU256 result 10000
      addU256 result (BitVec.ofNat 256 (u16At bytes (8 + i * 2)))) 0

/-- `from_sql`. -/
def fromSql (bytes : List UInt8) : Outcome String Element :=
  if bytes.length < 8 then .err "Invalid numeric format: too short"
  else
    let ndigits := u16At bytes 0
    let weight := (BitVec.ofNat 16 (u16At bytes 2)).toInt
    let sign := u16At bytes 4
    if sign ≠ 0 then .err "Expected positive number"
    else do
      let result ← readDigits bytes ndigits
      if 2 ^ 31 ≤ ndigits then .err "Number too large"
      else if (ndigits : ℤ) - 1 < -2 ^ 31 then .err "Arithmetic overflow"
      else
        let weightAdjustment := weight - ((ndigits : ℤ) - 1)
        if weightAdjustment > 0 then do
          let factor ← powU256 10000 weightAdjustment.toNat
          mulU256 result factor
        else pure result

end Element

/-! ## The database -/

namespace Postgres

/-- A `numeric` value: its digits in base 10000, and the power of 10000 that the first of them
stands for. -/
structure Numeric where
  digits : List ℕ
  weight : ℤ
  sign : ℕ
  dscale : ℕ

/-- `numeric_send`. -/
def numericSend (n : Numeric) : List UInt8 :=
  Codec.toBE 2 n.digits.length ++ (Codec.toBE 2 (BitVec.ofInt 16 n.weight).toNat ++
    (Codec.toBE 2 n.sign ++ (Codec.toBE 2 n.dscale ++ n.digits.flatMap (Codec.toBE 2))))

/-- `numeric_recv`: the signs are those of positive and negative numbers, of infinities and of what
is not a number. -/
def numericRecv (bytes : List UInt8) : Option Numeric :=
  let n : Numeric :=
    { digits := (List.range (Element.u16At bytes 0)).map fun i => Element.u16At bytes (8 + i * 2)
      weight := (BitVec.ofNat 16 (Element.u16At bytes 2)).toInt
      sign := Element.u16At bytes 4
      dscale := Element.u16At bytes 6 }
  if bytes.length = 8 + 2 * n.digits.length ∧ n.sign ∈ [0x0000, 0x4000, 0xC000, 0xD000, 0xF000] ∧
      n.dscale < 2 ^ 14 ∧ ∀ digit ∈ n.digits, digit < 10000 then some n
  else none

/-- `strip_var`: zeros at both ends are dropped. -/
def stripVar (n : Numeric) : Numeric :=
  let leading := n.digits.takeWhile fun digit => digit = 0
  let digits := (n.digits.dropWhile fun digit => digit = 0).rdropWhile fun digit => digit = 0
  if digits.isEmpty then { n with digits := [], weight := 0, sign := 0 }
  else { n with digits := digits, weight := n.weight - leading.length }

/-- What comes back when a value is stored. -/
def normalise (bytes : List UInt8) : Option (List UInt8) :=
  (numericRecv bytes).map fun n => numericSend (stripVar n)

end Postgres

/-! ## What is sent -/

namespace Element

/-- A decimal digit is below ten. -/
lemma digitOf_lt {c : Char} (h : c.isDigit) : Positional.digitOf c < 10 := by
  rw [Char.isDigit, Bool.and_eq_true, decide_eq_true_eq, decide_eq_true_eq] at h
  have hle : c.toNat ≤ 57 := UInt32.le_iff_toNat_le.1 h.2
  rw [Positional.digitOf]
  omega

/-- The digits of a string of digits are below ten. -/
lemma digits_lt {s : List Char} (hdigit : ∀ c ∈ s, c.isDigit) :
    ∀ digit ∈ s.map Positional.digitOf, digit < 10 := by
  intro digit hmem
  obtain ⟨c, hc, rfl⟩ := List.mem_map.1 hmem
  exact digitOf_lt (hdigit c hc)

/-- **At most four digits** are parsed as their number. By induction on the digits from the last
one on. -/
lemma parseU16_eq {s : List Char} (hne : s ≠ []) (hdigit : ∀ c ∈ s, c.isDigit)
    (hlen : s.length ≤ 4) : parseU16 s = some (Positional.value 10 (s.map Positional.digitOf)) := by
  have hfold : ∀ s : List Char, (∀ c ∈ s, c.isDigit) → s.length ≤ 4 →
      s.foldlM (fun n c =>
        if c.isDigit ∧ n * 10 + Positional.digitOf c < 2 ^ 16 then
          some (n * 10 + Positional.digitOf c)
        else none) 0 = some (Positional.value 10 (s.map Positional.digitOf)) := by
    intro s
    induction s using List.reverseRecOn with
    | nil => exact fun _ _ => rfl
    | append_singleton s c ih =>
      intro hdigit hlen
      have hlt := Positional.value_lt (by decide) (digits_lt hdigit)
      rw [List.length_map] at hlt
      have hpow : 10 ^ (s ++ [c]).length ≤ 10 ^ 4 := Nat.pow_le_pow_right (by decide) hlen
      rw [List.length_append, List.length_singleton] at hlen
      rw [List.map_append, List.map_singleton, Positional.value_concat] at hlt ⊢
      rw [List.foldlM_append, ih (fun c hc => hdigit c (List.mem_append_left _ hc)) (by omega),
        Option.bind_eq_bind, Option.bind_some]
      change (if _ then _ else _) >>= _ = _
      rw [if_pos ⟨hdigit c (List.mem_append_right _ List.mem_cons_self), by omega⟩]
      rfl
  have hplus : s.head? ≠ some '+' := by
    intro hhead
    have h := hdigit '+' (List.mem_of_mem_head? hhead)
    cases h
  unfold parseU16
  rw [if_neg hplus]
  dsimp only
  rw [if_neg (by rwa [List.isEmpty_iff]), hfold s hdigit hlen]

/-- **The digits that are pushed** stand for the number in base 10000. By induction on the length of
the decimal digits.

**Proof sketch.** Four decimal digits are taken off the end at a time, and each group is a digit in
base 10000. -/
lemma pushDigits_spec {s : List Char} (hdigit : ∀ c ∈ s, c.isDigit) :
    ∃ digits, pushDigits s = .ok digits ∧
      Positional.value 10000 digits.reverse = Positional.value 10 (s.map Positional.digitOf) ∧
      (∀ digit ∈ digits, digit < 10000) ∧ digits.length = (s.length + 3) / 4 := by
  have hparsed : ∀ t : List Char, t ≠ [] → (∀ c ∈ t, c.isDigit) → t.length ≤ 4 →
      ∃ digit, parseU16 t = some digit ∧
        digit = Positional.value 10 (t.map Positional.digitOf) ∧ digit < 10000 := by
    intro t hne ht hlen
    refine ⟨_, parseU16_eq hne ht hlen, rfl, ?_⟩
    have hlt := Positional.value_lt (by decide) (digits_lt ht)
    rw [List.length_map] at hlt
    exact hlt.trans_le (Nat.pow_le_pow_right (by decide) hlen)
  induction hn : s.length using Nat.strong_induction_on generalizing s with
  | _ n ih =>
    subst hn
    unfold pushDigits
    split_ifs with hlen hempty
    · have hdrop : (s.drop (s.length - 4)).length = 4 := by
        rw [List.length_drop]
        omega
      obtain ⟨digit, hdigit', hvalue, hlt⟩ := hparsed (s.drop (s.length - 4))
        (List.ne_nil_of_length_pos (by omega))
        (fun c hc => hdigit c (List.mem_of_mem_drop hc)) hdrop.le
      have htake : (s.take (s.length - 4)).length = s.length - 4 := by
        rw [List.length_take]
        omega
      obtain ⟨digits, hok, hvalues, hsmall, hcount⟩ := ih (s.take (s.length - 4)).length
        (by omega) (fun c hc => hdigit c (List.mem_of_mem_take hc)) rfl
      rw [hdigit', hok]
      refine ⟨digit :: digits, rfl, ?_, List.forall_mem_cons.2 ⟨hlt, hsmall⟩, ?_⟩
      · -- the last four decimal digits are the last digit
        have hsplit : Positional.value 10 (s.map Positional.digitOf) =
            Positional.value 10 ((s.take (s.length - 4)).map Positional.digitOf) * 10 ^ 4 +
              Positional.value 10 ((s.drop (s.length - 4)).map Positional.digitOf) := by
          conv_lhs => rw [← List.take_append_drop (s.length - 4) s]
          rw [List.map_append, Positional.value_append, List.length_map, hdrop]
        rw [List.reverse_cons, Positional.value_concat, hvalues, hvalue, hsplit]
        norm_num
      · rw [List.length_cons, hcount, htake]
        omega
    · rw [List.isEmpty_iff] at hempty
      subst hempty
      exact ⟨[], rfl, rfl, by simp, rfl⟩
    · rw [List.isEmpty_iff] at hempty
      have hpos := List.length_pos_of_ne_nil hempty
      obtain ⟨digit, hdigit', hvalue, hlt⟩ := hparsed s hempty hdigit (not_lt.1 hlen)
      rw [hdigit']
      refine ⟨[digit], rfl, ?_, by simpa using hlt, ?_⟩
      · rw [List.reverse_singleton, Positional.value_singleton, hvalue]
      · rw [List.length_singleton]
        omega

end Element

namespace Postgres

/-- A number without a fraction, that the database can hold: its last digit does not stand for less
than one. -/
structure Numeric.Whole (n : Numeric) : Prop where
  whole : (n.digits.length : ℤ) ≤ n.weight + 1
  weight_lt : n.weight < 2 ^ 15
  sign_eq : n.sign = 0
  dscale_eq : n.dscale = 0
  digits_lt : ∀ digit ∈ n.digits, digit < 10000

/-- The power of 10000 that the last digit of a number stands for. -/
def Numeric.exponent (n : Numeric) : ℕ := (n.weight + 1 - n.digits.length).toNat

/-- The number that a value without a fraction stands for. -/
def Numeric.toNat (n : Numeric) : ℕ := Positional.value 10000 n.digits * 10000 ^ n.exponent

end Postgres

namespace Element

/-- **What is sent** is a number without a fraction, with the value of the element.

**Proof sketch.** The loop pushes the digits in base 10000, the lowest group first
(`pushDigits_spec`). An element has at most 78 decimal digits, so that there are at most 20 groups
and the weight fits in 16 bits. -/
theorem toSql_eq (e : Element) :
    ∃ n : Postgres.Numeric, n.Whole ∧ n.toNat = e.toNat ∧
      e.toSql = .ok (Postgres.numericSend n) := by
  obtain ⟨digits, hok, hvalue, hlt, hlen⟩ := pushDigits_spec (fun c hc =>
    Nat.isDigit_of_mem_toDigits (by decide) le_rfl hc : ∀ c ∈ Nat.toDigits 10 e.toNat, c.isDigit)
  rw [Positional.value_toDigits] at hvalue
  have hpos : 0 < (Nat.toDigits 10 e.toNat).length := Nat.length_toDigits_pos
  have hshort : (Nat.toDigits 10 e.toNat).length ≤ 78 := by
    rw [Nat.length_toDigits_le_iff (by decide) (by decide)]
    exact e.isLt.trans_le (by norm_num)
  have hone : 1 ≤ digits.length := by omega
  have htwenty : digits.length ≤ 20 := by omega
  refine ⟨⟨digits.reverse, digits.length - 1, 0, 0⟩, ⟨?_, ?_, rfl, rfl, ?_⟩, ?_, ?_⟩
  · change (digits.reverse.length : ℤ) ≤ (digits.length : ℤ) - 1 + 1
    rw [List.length_reverse]
    omega
  · change (digits.length : ℤ) - 1 < 2 ^ 15
    omega
  · exact fun digit hmem => hlt digit (List.mem_reverse.1 hmem)
  · change Positional.value 10000 digits.reverse *
      10000 ^ ((digits.length : ℤ) - 1 + 1 - digits.reverse.length).toNat = e.toNat
    rw [List.length_reverse, sub_add_cancel, sub_self, Int.toNat_zero, pow_zero, mul_one, hvalue]
  · have hweight : (BitVec.ofInt 16 ((digits.length : ℤ) - 1)).toNat = digits.length - 1 := by
      rw [BitVec.toNat_ofInt]
      omega
    unfold toSql
    rw [hok, Outcome.ok_bind]
    dsimp only
    rw [List.length_reverse, if_neg (by omega), if_neg (by omega), Postgres.numericSend]
    dsimp only
    rw [hweight, List.length_reverse]
    rfl

end Element

/-! ## What the database sends back -/

namespace Postgres

/-- The 16 bits after a part. -/
lemma u16At_append (first rest : List UInt8) {n start : ℕ} (hn : n < 2 ^ 16)
    (hstart : first.length = start) :
    Element.u16At (first ++ (Codec.toBE 2 n ++ rest)) start = n := by
  rw [Element.u16At, List.drop_left' hstart, List.take_left' (Codec.length_toBE 2 n),
    Codec.ofBE_toBE]
  exact Nat.mod_eq_of_lt hn

/-- A digit of the database takes two bytes. -/
lemma length_flatMap_toBE (digits : List ℕ) :
    (digits.flatMap (Codec.toBE 2)).length = 2 * digits.length := by
  rw [List.length_flatMap]
  simp [Nat.mul_comm]

/-- The 16 bits of a digit. -/
lemma u16At_digit (header : List UInt8) (hheader : header.length = 8) {digits : List ℕ} {i : ℕ}
    (hi : i < digits.length) (hlt : ∀ digit ∈ digits, digit < 10000) :
    Element.u16At (header ++ digits.flatMap (Codec.toBE 2)) (8 + i * 2) = digits[i] := by
  have hsplit : digits.flatMap (Codec.toBE 2) = (digits.take i).flatMap (Codec.toBE 2) ++
      (Codec.toBE 2 digits[i] ++ (digits.drop (i + 1)).flatMap (Codec.toBE 2)) := by
    conv_lhs => rw [← List.take_append_drop i digits, List.drop_eq_getElem_cons hi]
    rw [List.flatMap_append, List.flatMap_cons]
  have hsmall := hlt _ (List.getElem_mem hi)
  rw [hsplit, ← List.append_assoc]
  refine u16At_append _ _ (by omega) ?_
  rw [List.length_append, length_flatMap_toBE, List.length_take, hheader]
  omega

/-- What is sent: 8 bytes, and two for each digit. -/
structure Sent (n : Numeric) (bytes : List UInt8) : Prop where
  length_eq : bytes.length = 8 + 2 * n.digits.length
  ndigits : Element.u16At bytes 0 = n.digits.length
  weight : (BitVec.ofNat 16 (Element.u16At bytes 2)).toInt = n.weight
  sign : Element.u16At bytes 4 = n.sign
  dscale : Element.u16At bytes 6 = n.dscale
  digit : ∀ i (hi : i < n.digits.length), Element.u16At bytes (8 + i * 2) = n.digits[i]

/-- **The bytes of a number** say what it is. -/
lemma Numeric.Whole.sent {n : Numeric} (h : n.Whole) : Sent n (numericSend n) := by
  have hweight := h.weight_lt
  have hwhole := h.whole
  have hcount : n.digits.length < 2 ^ 16 := by omega
  have hbits : (BitVec.ofInt 16 n.weight).toNat < 2 ^ 16 := (BitVec.ofInt 16 n.weight).isLt
  have hsign : n.sign < 2 ^ 16 := by rw [h.sign_eq]; decide
  have hdscale : n.dscale < 2 ^ 16 := by rw [h.dscale_eq]; decide
  refine ⟨?_, ?_, ?_, ?_, ?_, fun i hi => ?_⟩
  · simp only [numericSend, List.length_append, Codec.length_toBE, length_flatMap_toBE]
    omega
  · exact u16At_append [] _ hcount rfl
  · rw [numericSend, u16At_append _ _ hbits (Codec.length_toBE 2 _), BitVec.ofNat_toNat,
      BitVec.setWidth_eq, BitVec.toInt_ofInt]
    refine Int.bmod_eq_of_le ?_ ?_
    · omega
    · omega
  · rw [numericSend, ← List.append_assoc]
    exact u16At_append _ _ hsign (by simp)
  · rw [numericSend, ← List.append_assoc, ← List.append_assoc]
    exact u16At_append _ _ hdscale (by simp)
  · rw [numericSend, ← List.append_assoc, ← List.append_assoc, ← List.append_assoc]
    exact u16At_digit _ (by simp) hi h.digits_lt

/-- The database reads what it sends. -/
lemma numericRecv_numericSend {n : Numeric} (h : n.Whole) :
    numericRecv (numericSend n) = some n := by
  have hsent := h.sent
  have hdigits : ((List.range n.digits.length).map fun i =>
      Element.u16At (numericSend n) (8 + i * 2)) = n.digits := by
    refine List.ext_getElem (by simp) fun i hi hi' => ?_
    rw [List.getElem_map, List.getElem_range, hsent.digit i hi']
  unfold numericRecv
  dsimp only
  rw [hsent.ndigits, hsent.weight, hsent.sign, hsent.dscale, hdigits, if_pos]
  refine ⟨hsent.length_eq, ?_, ?_, h.digits_lt⟩
  · rw [h.sign_eq]
    decide
  · rw [h.dscale_eq]
    decide

/-! ### Zeros at both ends -/

/-- Digits that are all zero. -/
lemma value_eq_zero {digits : List ℕ} (h : ∀ digit ∈ digits, digit = 0) :
    Positional.value 10000 digits = 0 := by
  rw [List.eq_replicate_of_mem h, Positional.value_replicate_zero]

/-- **To strip zeros keeps the number.** The power that the last digit then stands for is no larger
than the number, unless the number is zero, and then its exponent is one.

**Proof sketch.** The digits split in leading zeros, a middle and trailing zeros. The leading zeros
are worth nothing, and the trailing ones go into the exponent. The middle starts with a digit that
is not zero, so that the number is no less than its last power. -/
theorem Numeric.Whole.stripVar {n : Numeric} (h : n.Whole) :
    (stripVar n).Whole ∧ (stripVar n).toNat = n.toNat ∧
      ((stripVar n).exponent = 1 ∨ 10000 ^ (stripVar n).exponent ≤ n.toNat) := by
  let zero : ℕ → Bool := fun digit => digit = 0
  let middle := (n.digits.dropWhile zero).rdropWhile zero
  let trailing := (n.digits.dropWhile zero).rtakeWhile zero
  have hsplit : n.digits = n.digits.takeWhile zero ++ (middle ++ trailing) := by
    rw [List.rdropWhile_append_rtakeWhile, List.takeWhile_append_dropWhile]
  have hleading : Positional.value 10000 (n.digits.takeWhile zero) = 0 :=
    value_eq_zero fun digit hmem =>
      of_decide_eq_true (show zero digit = true from List.mem_takeWhile_imp hmem)
  have htrailing : Positional.value 10000 trailing = 0 :=
    value_eq_zero fun digit hmem =>
      of_decide_eq_true (show zero digit = true from List.mem_rtakeWhile_imp hmem)
  have hvalue : Positional.value 10000 n.digits =
      Positional.value 10000 middle * 10000 ^ trailing.length := by
    rw [hsplit, Positional.value_append, hleading, Positional.value_append, htrailing, zero_mul,
      zero_add, add_zero]
  have hlen := congrArg List.length hsplit
  rw [List.length_append, List.length_append] at hlen
  have hwhole := h.whole
  have hweight := h.weight_lt
  unfold Postgres.stripVar
  by_cases hempty : middle.isEmpty
  · -- the number is zero
    rw [if_pos hempty]
    rw [List.isEmpty_iff] at hempty
    refine ⟨⟨?_, ?_, rfl, h.dscale_eq, by simp⟩, ?_, .inl rfl⟩
    · change (0 : ℤ) ≤ 0 + 1
      decide
    · change (0 : ℤ) < 2 ^ 15
      decide
    · rw [Numeric.toNat, Numeric.toNat, hvalue, hempty]
      simp
  · rw [if_neg hempty]
    have hexp : (n.weight - (n.digits.takeWhile zero).length + 1 - middle.length).toNat =
        trailing.length + n.exponent := by
      rw [Numeric.exponent]
      omega
    have hnat : n.toNat = Positional.value 10000 middle *
        10000 ^ (trailing.length + n.exponent) := by
      rw [Numeric.toNat, hvalue, pow_add, mul_assoc]
    refine ⟨⟨?_, ?_, h.sign_eq, h.dscale_eq, fun digit hmem => h.digits_lt digit ?_⟩, ?_, .inr ?_⟩
    · change (middle.length : ℤ) ≤ n.weight - (n.digits.takeWhile zero).length + 1
      omega
    · change n.weight - (n.digits.takeWhile zero).length < 2 ^ 15
      omega
    · rw [hsplit]
      exact List.mem_append_right _ (List.mem_append_left _ hmem)
    · -- the trailing zeros move into the exponent
      change Positional.value 10000 middle *
        10000 ^ (n.weight - (n.digits.takeWhile zero).length + 1 - middle.length).toNat = _
      rw [hexp, hnat]
    · -- the last digit is not zero
      have hne : middle ≠ [] := by rwa [List.isEmpty_iff] at hempty
      have hlast : middle.getLast hne ≠ 0 := fun hzero =>
        List.rdropWhile_last_not zero (n.digits.dropWhile zero) hne (decide_eq_true hzero)
      have hpos : 0 < Positional.value 10000 middle := by
        rw [← List.dropLast_append_getLast hne, Positional.value_concat]
        omega
      change 10000 ^ (n.weight - (n.digits.takeWhile zero).length + 1 - middle.length).toNat ≤ _
      rw [hexp, hnat]
      exact Nat.le_mul_of_pos_left _ hpos

end Postgres

/-! ## What is read back -/

namespace Element

variable {ε : Type}

/-- A product in range is the product. -/
lemma mulU256_eq {a b : Element} (h : a.toNat * b.toNat < 2 ^ 256) :
    ∃ c : Element, (mulU256 a b : Outcome ε Element) = .ok c ∧ c.toNat = a.toNat * b.toNat := by
  refine ⟨a * b, if_pos h, ?_⟩
  rw [BitVec.toNat_mul]
  exact Nat.mod_eq_of_lt h

/-- A sum in range is the sum. -/
lemma addU256_eq {a b : Element} (h : a.toNat + b.toNat < 2 ^ 256) :
    ∃ c : Element, (addU256 a b : Outcome ε Element) = .ok c ∧ c.toNat = a.toNat + b.toNat := by
  refine ⟨a + b, if_pos h, ?_⟩
  rw [BitVec.toNat_add]
  exact Nat.mod_eq_of_lt h

/-- **The loop of the power** does not overflow when the power fits: the base is squared only while
its square divides what is left. By induction on the exponent. -/
lemma powLoop_eq {acc base : Element} {exp : ℕ} (hacc : 0 < acc.toNat) (hbase : 0 < base.toNat)
    (hfit : acc.toNat * base.toNat ^ exp < 2 ^ 256) :
    ∃ c : Element, (powLoop acc base exp : Outcome ε Element) = .ok c ∧
      c.toNat = acc.toNat * base.toNat ^ exp := by
  induction exp using Nat.strong_induction_on generalizing acc base with
  | _ exp ih =>
    unfold powLoop
    by_cases hlarge : 1 < exp
    · rw [dif_pos hlarge]
      have hsquare : base.toNat * base.toNat < 2 ^ 256 := by
        rw [← pow_two]
        exact (Nat.pow_le_pow_right hbase hlarge).trans_lt
          ((Nat.le_mul_of_pos_left _ hacc).trans_lt hfit)
      obtain ⟨base', hbase', hbaseNat⟩ := @mulU256_eq ε base base hsquare
      -- the exponent is twice its half, and one more if it is odd
      have hsplit : acc.toNat * base.toNat ^ exp =
          acc.toNat * base.toNat ^ (exp % 2) * base'.toNat ^ (exp / 2) := by
        rw [hbaseNat, ← pow_two, ← pow_mul, mul_assoc, ← pow_add, Nat.mod_add_div]
      obtain ⟨acc', hacc', haccNat⟩ : ∃ acc' : Element,
          ((if exp % 2 = 1 then mulU256 acc base else pure acc) : Outcome ε Element) = .ok acc' ∧
            acc'.toNat = acc.toNat * base.toNat ^ (exp % 2) := by
        by_cases hodd : exp % 2 = 1
        · rw [if_pos hodd, hodd, pow_one]
          refine mulU256_eq (lt_of_le_of_lt ?_ hfit)
          exact Nat.mul_le_mul_left _ (Nat.le_self_pow (by omega) _)
        · rw [if_neg hodd]
          refine ⟨acc, rfl, ?_⟩
          rw [show exp % 2 = 0 by omega, pow_zero, mul_one]
      rw [hacc', Outcome.ok_bind, hbase', Outcome.ok_bind, hsplit, ← haccNat]
      rw [hsplit, ← haccNat] at hfit
      refine ih (exp / 2) (by omega) ?_ ?_ hfit
      · rw [haccNat]
        exact Nat.mul_pos hacc (Nat.pow_pos hbase)
      · rw [hbaseNat]
        exact Nat.mul_pos hbase hbase
    · rw [dif_neg hlarge]
      by_cases hone : exp = 1
      · rw [if_pos hone]
        rw [hone, pow_one] at hfit ⊢
        exact mulU256_eq hfit
      · rw [if_neg hone, show exp = 0 by omega, pow_zero, mul_one]
        exact ⟨acc, rfl, rfl⟩

/-- **The loop over the digits** does not overflow when the number fits. By induction on the digits
read. -/
lemma readDigits_eq {n : Postgres.Numeric} {bytes : List UInt8} (h : Postgres.Sent n bytes)
    (hfit : Positional.value 10000 n.digits < 2 ^ 256) (hlt : ∀ digit ∈ n.digits, digit < 10000) :
    ∃ c : Element, readDigits bytes n.digits.length = .ok c ∧
      c.toNat = Positional.value 10000 n.digits := by
  have hread : ∀ k ≤ n.digits.length, ∃ c : Element, readDigits bytes k = .ok c ∧
      c.toNat = Positional.value 10000 (n.digits.take k) := by
    intro k hk
    induction k with
    | zero => exact ⟨0, rfl, rfl⟩
    | succ k ih =>
      obtain ⟨c, hok, hc⟩ := ih (by omega)
      have hvalue : Positional.value 10000 (n.digits.take (k + 1)) = c.toNat * 10000 +
          n.digits[k] := by
        rw [← List.take_concat_get' _ _ hk, Positional.value_concat, hc]
      have hle : Positional.value 10000 (n.digits.take (k + 1)) < 2 ^ 256 := by
        refine lt_of_le_of_lt ?_ hfit
        conv_rhs => rw [← List.take_append_drop (k + 1) n.digits]
        exact Positional.value_le_append (by decide) _ _
      have hdigit := hlt _ (List.getElem_mem hk)
      have hnat : (BitVec.ofNat 256 n.digits[k]).toNat = n.digits[k] := by
        rw [BitVec.toNat_ofNat]
        omega
      obtain ⟨product, hproduct, hproductNat⟩ := @mulU256_eq String c 10000
        (show c.toNat * 10000 < 2 ^ 256 by omega)
      change product.toNat = c.toNat * 10000 at hproductNat
      obtain ⟨sum, hsum, hsumNat⟩ := @addU256_eq String product (BitVec.ofNat 256 n.digits[k])
        (by rw [hnat]; omega)
      rw [hnat] at hsumNat
      refine ⟨sum, ?_, by omega⟩
      have hlength := h.length_eq
      rw [readDigits, List.range_succ, List.foldlM_append]
      rw [readDigits] at hok
      rw [hok, Outcome.ok_bind, List.foldlM_cons, if_neg (by omega), hproduct, Outcome.ok_bind,
        h.digit k hk, hsum]
      rfl
  obtain ⟨c, hok, hc⟩ := hread _ le_rfl
  rw [List.take_length] at hc
  exact ⟨c, hok, hc⟩

/-- **A number that fits is read back**, without overflow.

**Proof sketch.** The digits are read one after the other, each prefix below the number and so in
range (`readDigits_eq`); the power for the trailing zeros is in range by assumption (`powLoop_eq`).
-/
theorem fromSql_numericSend {n : Postgres.Numeric} (h : n.Whole) (hfit : n.toNat < 2 ^ 256)
    (hpow : 10000 ^ n.exponent < 2 ^ 256) :
    fromSql (Postgres.numericSend n) = .ok (BitVec.ofNat 256 n.toNat) := by
  have hsent := h.sent
  have hwhole := h.whole
  have hweight := h.weight_lt
  have hlength := hsent.length_eq
  have hvalue : Positional.value 10000 n.digits < 2 ^ 256 :=
    lt_of_le_of_lt (Nat.le_mul_of_pos_right _ (Nat.pow_pos (by decide))) hfit
  obtain ⟨result, hresult, hnat⟩ := readDigits_eq hsent hvalue h.digits_lt
  have heq : ∀ c : Element, c.toNat = n.toNat → c = BitVec.ofNat 256 n.toNat := by
    intro c hc
    rw [← hc, BitVec.ofNat_toNat, BitVec.setWidth_eq]
  unfold fromSql
  dsimp only
  rw [if_neg (by omega), hsent.ndigits, hsent.weight, hsent.sign, if_neg (by simp [h.sign_eq]),
    hresult, Outcome.ok_bind, if_neg (by omega), if_neg (by omega)]
  by_cases hadjust : n.weight - ((n.digits.length : ℤ) - 1) > 0
  · have hexp : (n.weight - ((n.digits.length : ℤ) - 1)).toNat = n.exponent := by
      rw [Postgres.Numeric.exponent]
      omega
    obtain ⟨factor, hfactor, hfactorNat⟩ := @powLoop_eq String 1 10000 n.exponent (by decide)
      (by decide) (show 1 * 10000 ^ n.exponent < 2 ^ 256 by rw [one_mul]; exact hpow)
    change factor.toNat = 1 * 10000 ^ n.exponent at hfactorNat
    rw [one_mul] at hfactorNat
    have hproduct : result.toNat * factor.toNat = n.toNat := by
      rw [hnat, hfactorNat, Postgres.Numeric.toNat]
    obtain ⟨c, hc, hcNat⟩ := @mulU256_eq String result factor (by rw [hproduct]; exact hfit)
    rw [if_pos hadjust, hexp, powU256, hfactor, Outcome.ok_bind, hc, heq c (hcNat.trans hproduct)]
  · -- the last digit stands for ones
    have hexp : n.exponent = 0 := by
      rw [Postgres.Numeric.exponent]
      omega
    rw [if_neg hadjust, heq result]
    · rfl
    · rw [hnat, Postgres.Numeric.toNat, hexp, pow_zero, mul_one]

/-- **An element comes back from the database.** It is written, the database strips zeros at both
ends, and what it sends back is read as the element; no step overflows.

**Proof sketch.** What is sent is a number without a fraction (`toSql_eq`); stripping zeros keeps
it, with a last power that is no larger (`Numeric.Whole.stripVar`); and so it is read back in range
(`fromSql_numericSend`). -/
theorem fromSql_toSql (e : Element) :
    ∃ bytes stored, e.toSql = .ok bytes ∧ Postgres.normalise bytes = some stored ∧
      fromSql stored = .ok e := by
  obtain ⟨n, hwhole, hnat, hok⟩ := e.toSql_eq
  obtain ⟨hstrip, hstripNat, hexp⟩ := hwhole.stripVar
  refine ⟨_, Postgres.numericSend (Postgres.stripVar n), hok, ?_, ?_⟩
  · rw [Postgres.normalise, Postgres.numericRecv_numericSend hwhole]
    rfl
  · have hfit : n.toNat < 2 ^ 256 := by
      rw [hnat]
      exact e.isLt
    have hpow : 10000 ^ (Postgres.stripVar n).exponent < 2 ^ 256 := by
      rcases hexp with hone | hle
      · rw [hone]
        norm_num
      · exact hle.trans_lt hfit
    rw [fromSql_numericSend hstrip (hstripNat ▸ hfit) hpow, hstripNat, hnat, BitVec.ofNat_toNat,
      BitVec.setWidth_eq]

end Element

end TempoRollup
