import OpTree.Arith
import Mathlib

/-!
# Arithmetic on words

A wrapped sum, difference or product is taken for exact by its sign or by dividing it again. Here
each of these tests is shown to tell exactly whether the mathematical result fits in 64 bits, for
all pairs of words, and what an operation answers is read off from that. The doubles of two words
are only asked for when no word is found, and that of a divisor is never a zero.
-/

namespace OpTree

set_option autoImplicit false

/-- The integers that a word can hold. -/
def Fits (z : Int) : Prop := -2 ^ 63 ≤ z ∧ z < 2 ^ 63
  deriving Decidable

namespace Word

variable {x y w : Int64}

theorem fits (x : Int64) : Fits x.toInt := ⟨x.le_toInt, x.toInt_lt⟩

theorem exists_toInt_iff {z : Int} : (∃ w : Int64, w.toInt = z) ↔ Fits z := by
  constructor
  · rintro ⟨w, rfl⟩
    exact fits w
  · exact fun h => ⟨Int64.ofInt z, Int64.toInt_ofInt_of_le h.1 h.2⟩

theorem bmod_of_fits {z : Int} (h : Fits z) : z.bmod (2 ^ 64) = z := Int.bmod_eq_of_le h.1 h.2

theorem wrapped (z : Int) : ∃ k : Int, z.bmod (2 ^ 64) = z + 2 ^ 64 * k ∧ Fits (z.bmod (2 ^ 64)) := by
  obtain ⟨k, hk⟩ : ((2 ^ 64 : Nat) : Int) ∣ z.bmod (2 ^ 64) - z := Int.dvd_bmod_sub_self
  have low := @Int.le_bmod z (2 ^ 64) (by decide)
  have high := @Int.bmod_lt z (2 ^ 64) (by decide)
  exact ⟨k, by omega, by constructor <;> omega⟩

theorem toInt_ne_zero (h : y ≠ 0) : y.toInt ≠ 0 := fun e => h (Int64.toInt.inj e)

theorem lt_zero_iff : x < 0 ↔ x.toInt < 0 := Int64.lt_iff_toInt_lt

theorem zero_lt_iff : 0 < x ↔ 0 < x.toInt := Int64.lt_iff_toInt_lt

theorem zero_le_iff : 0 ≤ x ↔ 0 ≤ x.toInt := Int64.le_iff_toInt_le

/-! ## Sums and differences -/

theorem unwrapped_eq_some_iff {r w : Int64} {n : Int} {wraps : Prop} [Decidable wraps]
    (hr : r.toInt = n.bmod (2 ^ 64)) (hwraps : wraps ↔ ¬ Fits n) :
    (if wraps then none else some r) = some w ↔ w.toInt = n := by
  split
  · rename_i hw
    refine ⟨fun e => ?_, fun e => absurd (e ▸ fits w) (hwraps.mp hw)⟩
    cases e
  · rename_i hw
    have hn : Fits n := not_not.mp fun hn => hw (hwraps.mpr hn)
    rw [bmod_of_fits hn] at hr
    rw [Option.some.injEq, ← Int64.toInt_inj, hr, eq_comm]

theorem sum?_eq_some_iff : sum? x y = some w ↔ w.toInt = x.toInt + y.toInt := by
  refine unwrapped_eq_some_iff (Int64.toInt_add x y) ?_
  obtain ⟨k, hk, hr⟩ := wrapped (x.toInt + y.toInt)
  rw [← Int64.toInt_add] at hk hr
  have hx := fits x
  have hy := fits y
  simp only [Fits] at hr hx hy
  simp only [Fits, zero_lt_iff, lt_zero_iff, zero_le_iff]
  omega

theorem difference?_eq_some_iff : difference? x y = some w ↔ w.toInt = x.toInt - y.toInt := by
  refine unwrapped_eq_some_iff (Int64.toInt_sub x y) ?_
  obtain ⟨k, hk, hr⟩ := wrapped (x.toInt - y.toInt)
  rw [← Int64.toInt_sub] at hk hr
  have hx := fits x
  have hy := fits y
  simp only [Fits] at hr hx hy
  simp only [Fits, zero_lt_iff, lt_zero_iff, zero_le_iff]
  omega

/-! ## Products and quotients -/

theorem toInt_quotient (h : y ≠ 0) : (quotient x y h).toInt = (x.toInt.tdiv y.toInt).bmod (2 ^ 64) :=
  Int64.toInt_div x y

theorem toInt_remainder (h : y ≠ 0) : (remainder x y h).toInt = x.toInt.tmod y.toInt :=
  Int64.toInt_mod x y

theorem fits_tdiv (h : y ≠ 0) (hm : ¬ (x = Int64.minValue ∧ y = -1)) :
    Fits (x.toInt.tdiv y.toInt) := by
  have hx := fits x
  have hy := toInt_ne_zero h
  have size : (x.toInt.tdiv y.toInt).natAbs = x.toInt.natAbs / y.toInt.natAbs := Int.natAbs_tdiv _ _
  by_cases one : y.toInt = -1
  · have least : x.toInt ≠ -2 ^ 63 := by
      intro e
      exact hm ⟨Int64.toInt.inj (e.trans Int64.toInt_minValue.symm), Int64.toInt.inj one⟩
    rw [one, Int.tdiv_neg, Int.tdiv_one]
    simp only [Fits] at hx ⊢
    omega
  by_cases unit : y.toInt = 1
  · rw [unit, Int.tdiv_one]
    exact hx
  · have half : x.toInt.natAbs / y.toInt.natAbs ≤ x.toInt.natAbs / 2 :=
      Nat.div_le_div_left (by omega) (by decide)
    simp only [Fits] at hx ⊢
    omega

theorem toInt_quotient_of_ne (h : y ≠ 0) (hm : ¬ (x = Int64.minValue ∧ y = -1)) :
    (quotient x y h).toInt = x.toInt.tdiv y.toInt := by
  rw [toInt_quotient, bmod_of_fits (fits_tdiv h hm)]

/-- A wrapped product that divides back is the product: the two are closer than a word apart. -/
theorem toInt_mul_of_quotient (h : y ≠ 0) (hm : ¬ (x * y = Int64.minValue ∧ y = -1))
    (hq : quotient (x * y) y h = x) : (x * y).toInt = x.toInt * y.toInt := by
  obtain ⟨k, hk, -⟩ := wrapped (x.toInt * y.toInt)
  rw [← Int64.toInt_mul] at hk
  have back : (x * y).toInt.tdiv y.toInt = x.toInt := by rw [← toInt_quotient_of_ne h hm, hq]
  have rest : (x * y).toInt.tmod y.toInt = 2 ^ 64 * k := by
    rw [Int.tmod_def, back, hk]
    ring
  have size : ((x * y).toInt.tmod y.toInt).natAbs < y.toInt.natAbs := by
    rw [Int.natAbs_tmod]
    exact Nat.mod_lt _ (by have := toInt_ne_zero h; omega)
  have hy := fits y
  simp only [Fits] at hy
  omega

theorem product?_eq_some_iff : product? x y = some w ↔ w.toInt = x.toInt * y.toInt := by
  by_cases zero : x = 0 ∨ y = 0
  · have : x.toInt * y.toInt = 0 := by rcases zero with rfl | rfl <;> simp
    rw [this, product?, dif_pos zero, Option.some.injEq, ← Int64.toInt_inj, eq_comm]
    rfl
  have hy : y ≠ 0 := fun e => zero (.inr e)
  simp only [product?, dif_neg zero]
  split
  · -- a product that fits divides back, and none of the two exceptions has one
    rename_i off
    refine ⟨nofun, fun e => ?_⟩
    have exact : (x * y).toInt = x.toInt * y.toInt := by
      rw [Int64.toInt_mul, bmod_of_fits (e ▸ fits w)]
    have hw := fits w
    simp only [Fits, e] at hw
    rcases off with off | ⟨rfl, rfl⟩ | ⟨rfl, rfl⟩
    · refine absurd (Int64.toInt.inj ?_) off
      rw [toInt_quotient, exact, Int.mul_tdiv_cancel _ (toInt_ne_zero hy), bmod_of_fits (fits x)]
    · exact absurd hw (by decide)
    · exact absurd hw (by decide)
  · rename_i back
    simp only [not_or, ne_eq, not_not] at back
    obtain ⟨hq, -, hm⟩ := back
    have hm' : ¬ (x * y = Int64.minValue ∧ y = -1) := by
      rintro ⟨least, rfl⟩
      refine hm ⟨rfl, ?_⟩
      rw [← hq]
      simp only [quotient, least]
      decide
    rw [Option.some.injEq, ← Int64.toInt_inj, toInt_mul_of_quotient hy hm' hq, eq_comm]

theorem ratio?_eq_some_iff (h : y ≠ 0) :
    ratio? x y h = some w ↔ w.toInt * y.toInt = x.toInt := by
  have hy := toInt_ne_zero h
  have whole : remainder x y h = 0 ↔ y.toInt ∣ x.toInt := by
    rw [Int.dvd_iff_tmod_eq_zero, ← toInt_remainder h, ← Int64.toInt_inj]
    rfl
  simp only [ratio?, whole]
  split
  · rename_i ok
    rw [Option.some.injEq, ← Int64.toInt_inj, toInt_quotient_of_ne h ok.2]
    constructor
    · rintro e
      rw [← e, Int.tdiv_mul_cancel ok.1]
    · rintro e
      rw [← e, Int.mul_tdiv_cancel _ hy]
  · rename_i no
    refine ⟨nofun, fun e => absurd ⟨⟨w.toInt, by rw [← e, mul_comm]⟩, ?_⟩ no⟩
    rintro ⟨rfl, rfl⟩
    have hw := fits w
    rw [Int64.toInt_minValue, show (-1 : Int64).toInt = -1 from rfl] at e
    simp only [Fits] at hw
    omega

/-! ## Remainders -/

/-- The remainder of the machine has either sign. Adding the right operand where the signs differ
brings it to the other side of zero, so nothing wraps. -/
theorem modulus_spec (h : y ≠ 0) : (modulus x y h).toInt ≡ x.toInt [ZMOD y.toInt] ∧
    (0 ≤ (modulus x y h).toInt ∧ (modulus x y h).toInt < y.toInt ∨
      y.toInt < (modulus x y h).toInt ∧ (modulus x y h).toInt ≤ 0) := by
  have hy := fits y
  have hy0 := toInt_ne_zero h
  have size : (remainder x y h).toInt.natAbs < y.toInt.natAbs := by
    rw [toInt_remainder, Int.natAbs_tmod]
    exact Nat.mod_lt _ (by omega)
  have same : (remainder x y h).toInt ≡ x.toInt [ZMOD y.toInt] := by
    rw [toInt_remainder, Int.tmod_def, Int.modEq_iff_dvd]
    exact ⟨x.toInt.tdiv y.toInt, by ring⟩
  have zero : remainder x y h = 0 ↔ (remainder x y h).toInt = 0 := Int64.toInt_inj.symm
  simp only [Fits] at hy
  simp only [modulus, ne_eq, zero, lt_zero_iff, decide_eq_decide]
  split
  · rename_i other
    have sum : (remainder x y h + y).toInt = (remainder x y h).toInt + y.toInt := by
      rw [Int64.toInt_add, bmod_of_fits (by constructor <;> omega)]
    rw [sum]
    exact ⟨by simpa using same, by omega⟩
  · exact ⟨same, by omega⟩

end Word

/-! ## The doubles of words -/

namespace Binary64

theorem roundDiv_le (num den : Nat) : roundDiv num den ≤ num / den + 1 := by
  simp only [roundDiv]
  split_ifs <;> omega

theorem floorLog2_one {n : Nat} (h : 0 < n) : floorLog2 n 1 = Nat.log2 n := by
  have low : 2 ^ Nat.log2 n ≤ n := Nat.log2_self_le (by omega)
  have one : Nat.log2 1 = 0 := by decide
  simp only [floorLog2, scale, one, Nat.pow_eq, one_mul]
  split
  · have : Nat.log2 n = 0 := by omega
    simp [this, Nat.one_le_iff_ne_zero.mpr h.ne']
  · simp [low]

theorem scale_word_le (n : Nat) :
    (scale 2 (52 - (Nat.log2 n : Int)) n 1).1 / (scale 2 (52 - (Nat.log2 n : Int)) n 1).2 < 2 ^ 53 := by
  have high : n < 2 ^ (Nat.log2 n + 1) := Nat.lt_log2_self
  simp only [scale, Nat.pow_eq, one_mul]
  split
  · rename_i small
    rw [Nat.div_one]
    calc n * 2 ^ (52 - (Nat.log2 n : Int)).toNat
        < 2 ^ (Nat.log2 n + 1) * 2 ^ (52 - (Nat.log2 n : Int)).toNat := by gcongr
      _ = 2 ^ 53 := by rw [← pow_add]; congr 1; omega
  · rename_i large
    refine Nat.div_lt_of_lt_mul (high.trans_eq ?_)
    rw [← pow_add]
    congr 1
    omega

/-- The bits of a positive word are neither those of zero nor beyond the largest double. -/
theorem nearestBits_word {n : Nat} (h : 0 < n) (hn : n ≤ 2 ^ 63) :
    ∃ b : UInt64, nearestBits n 1 = some b ∧ 0 < b.toNat ∧ b.toNat < 2047 * 2 ^ 52 := by
  have top : Nat.log2 n < 64 := (Nat.log2_lt h.ne').mpr (by omega)
  have round := roundDiv_le (scale 2 (52 - (Nat.log2 n : Int)) n 1).1
    (scale 2 (52 - (Nat.log2 n : Int)) n 1).2
  have size := scale_word_le n
  have exponent : max ((Nat.log2 n : Int) - 52) (-1074) = (Nat.log2 n : Int) - 52 := by omega
  have biased : ((Nat.log2 n : Int) - 52 + 1074).toNat = Nat.log2 n + 1022 := by omega
  simp only [nearestBits, floorLog2_one h, exponent, biased, Int.neg_sub, Nat.pow_eq]
  rw [if_neg (by simp; omega), if_neg (by omega)]
  refine ⟨_, rfl, ?_, ?_⟩ <;>
  · rw [Nat.toUInt64_eq, UInt64.toNat_ofNat', Nat.mod_eq_of_lt (by omega)]
    omega

end Binary64

section

open Float.Model Float.Model.UnpackedFloat

theorem toBits_ofBits {b : UInt64} (h : b.toNat / 2 ^ 52 % 2 ^ 11 ≠ 2047) :
    (Float.ofBits b).toBits = b := by
  have number : ¬ @isNaNBits Format.binary64 b.toBitVec := by
    intro nan
    simp only [isNaNBits, unpackExponent_def, decide_eq_true_eq] at nan
    have := congrArg BitVec.toNat nan.1
    simp [BitVec.extractLsb'_toNat, Nat.shiftRight_eq_div_pow] at this
    omega
  have := @pack_unpack Format.binary64 b.toBitVec
  rw [if_neg number] at this
  exact UInt64.toBitVec_inj.mp this

end

/-- A double with neither the bits of a zero nor the exponent of the infinities is no zero. -/
theorem withSign_beq_zero {neg : Bool} {b : UInt64} (pos : 0 < b.toNat)
    (small : b.toNat < 2047 * 2 ^ 52) : (Literal.withSign neg b == 0.0) = false := by
  have bits : (if neg then b ||| 0x8000000000000000 else b).toNat =
      (if neg then 2 ^ 63 else 0) + b.toNat := by
    cases neg with
    | false => simp
    | true =>
      have top : (0x8000000000000000 : UInt64).toNat = 2 ^ 63 * 1 := rfl
      have low : b.toNat < 2 ^ 63 := by omega
      rw [if_pos rfl, if_pos rfl, UInt64.toNat_or, top, Nat.or_comm,
        ← Nat.two_pow_add_eq_or_of_lt low, Nat.mul_one]
  have kept : (Literal.withSign neg b).toBits = if neg then b ||| 0x8000000000000000 else b :=
    toBits_ofBits (by rw [bits]; cases neg <;> simp <;> omega)
  have plus : (0.0 : Float).toBits.toNat = 0 := by decide +kernel
  have nought : (0 : Float).toBits.toNat = 0 := by decide +kernel
  have minus : (-0 : Float).toBits.toNat = 2 ^ 63 := by decide +kernel
  rw [← Bool.not_eq_true, Float.beq_iff_ne_nan_and_eq]
  rintro ⟨-, -, same | ⟨same, -⟩ | ⟨same, -⟩⟩ <;>
  · rw [same] at kept
    rw [← kept] at bits
    cases neg <;> simp_all

theorem ofInt_beq_zero {y : Int64} (h : y ≠ 0) : (Binary64.ofInt y.toInt == 0.0) = false := by
  have size := Word.fits y
  have := Word.toInt_ne_zero h
  simp only [Fits] at size
  obtain ⟨b, hb, pos, small⟩ := Binary64.nearestBits_word (n := y.toInt.natAbs) (by omega) (by omega)
  rw [Binary64.ofInt, hb]
  exact withSign_beq_zero pos small

/-! ## What the operations answer -/

namespace ArithOp

/-- An answer keeps `z` as a word if `z` fits, and is the double `f` if it does not. -/
def Answers (r : Except ArithError Number) (z : Int) (f : Float) : Prop :=
  (Fits z → ∃ w : Int64, w.toInt = z ∧ r = .ok (.int w)) ∧ (¬ Fits z → r = .ok (.float f))

/-- An operation that finds the word of a result whenever there is one answers with it. -/
theorem answers_of_onWords {op : ArithOp} {x y : Int64} {r : Option Int64} {z : Int} {f : Float}
    (h : op ≠ modulo) (run : op.onWords x y = .ok r)
    (found : ∀ w, r = some w ↔ w.toInt = z)
    (float : op.onFloats (Number.int x).toFloat (Number.int y).toFloat = .ok (.float f)) :
    Answers (op.apply (.int x) (.int y)) z f := by
  have words : op.apply (.int x) (.int y) = match r with
      | some w => .ok (.int w)
      | none => op.onFloats (Number.int x).toFloat (Number.int y).toFloat := by
    cases op with
    | modulo => exact absurd rfl h
    | _ => simp only [apply, run]; cases r <;> rfl
  rw [words]
  cases r with
  | none =>
    refine ⟨fun fits => ?_, fun _ => float⟩
    obtain ⟨w, hw⟩ := Word.exists_toInt_iff.mpr fits
    exact absurd ((found w).mpr hw) (by simp)
  | some w =>
    have hw := (found w).mp rfl
    exact ⟨fun _ => ⟨w, hw, rfl⟩, fun no => absurd (Word.exists_toInt_iff.mp ⟨w, hw⟩) no⟩

variable {x y : Int64}

theorem onFloats_divide (h : y ≠ 0) : divide.onFloats (Number.int x).toFloat (Number.int y).toFloat =
    .ok (.float ((Number.int x).toFloat / (Number.int y).toFloat)) := by
  simp only [onFloats, Number.toFloat, ofInt_beq_zero h, Bool.false_eq_true, ↓reduceIte]

theorem onWords_divide (h : y ≠ 0) : divide.onWords x y = .ok (Word.ratio? x y h) := dif_neg h

theorem divide_zero : divide.apply (.int x) (.int 0) = .error .divisionByZero := rfl

theorem answers_divide (h : y ≠ 0) (hd : y.toInt ∣ x.toInt) :
    Answers (divide.apply (.int x) (.int y)) (x.toInt / y.toInt)
      ((Number.int x).toFloat / (Number.int y).toFloat) := by
  refine answers_of_onWords nofun (onWords_divide h) (fun w => ?_) (onFloats_divide h)
  rw [Word.ratio?_eq_some_iff, eq_comm, ← Int.ediv_eq_iff_eq_mul_left (Word.toInt_ne_zero h) hd,
    eq_comm]

theorem divide_of_not_dvd (h : y ≠ 0) (hd : ¬ y.toInt ∣ x.toInt) :
    divide.apply (.int x) (.int y) =
      .ok (.float ((Number.int x).toFloat / (Number.int y).toFloat)) := by
  have none : Word.ratio? x y h = none := by
    rw [Option.eq_none_iff_forall_ne_some]
    intro w hw
    exact hd ⟨w.toInt, by rw [← (Word.ratio?_eq_some_iff h).mp hw, mul_comm]⟩
  simp only [apply, onWords_divide h, none]
  exact onFloats_divide h

theorem divide_ne_error (h : y ≠ 0) (e : ArithError) : divide.apply (.int x) (.int y) ≠ .error e := by
  by_cases hd : y.toInt ∣ x.toInt
  · obtain ⟨word, double⟩ := answers_divide h hd
    by_cases fits : Fits (x.toInt / y.toInt)
    · obtain ⟨w, -, hw⟩ := word fits
      rw [hw]
      nofun
    · rw [double fits]
      nofun
  · rw [divide_of_not_dvd h hd]
    nofun

theorem modulo_word (h : y ≠ 0) :
    modulo.apply (.int x) (.int y) = .ok (.int (Word.modulus x y h)) := by
  simp [apply, onWords, Number.toInt64, h]

/-- Sums, differences and products of two words are exact as long as a word holds them and doubles
from there on. A quotient fails for the divisor zero only; it is the word of the exact quotient if
there is one and a double otherwise. A remainder takes the sign of its divisor. -/
theorem apply_words (x y : Int64) :
    Answers (add.apply (.int x) (.int y)) (x.toInt + y.toInt) ((Number.int x).toFloat + (Number.int y).toFloat) ∧
    Answers (subtract.apply (.int x) (.int y)) (x.toInt - y.toInt)
      ((Number.int x).toFloat - (Number.int y).toFloat) ∧
    Answers (multiply.apply (.int x) (.int y)) (x.toInt * y.toInt)
      ((Number.int x).toFloat * (Number.int y).toFloat) ∧
    (divide.apply (.int x) (.int y) = .error .divisionByZero ↔ y = 0) ∧
    (y ≠ 0 → y.toInt ∣ x.toInt →
      Answers (divide.apply (.int x) (.int y)) (x.toInt / y.toInt)
        ((Number.int x).toFloat / (Number.int y).toFloat)) ∧
    (y ≠ 0 → ¬ y.toInt ∣ x.toInt →
      divide.apply (.int x) (.int y) = .ok (.float ((Number.int x).toFloat / (Number.int y).toFloat))) ∧
    (y ≠ 0 → ∃ r : Int64, modulo.apply (.int x) (.int y) = .ok (.int r) ∧
      r.toInt ≡ x.toInt [ZMOD y.toInt] ∧
      (0 ≤ r.toInt ∧ r.toInt < y.toInt ∨ y.toInt < r.toInt ∧ r.toInt ≤ 0)) := by
  refine ⟨?sum, ?difference, ?product, ?fails, answers_divide, divide_of_not_dvd, ?remainder⟩
  case sum => exact answers_of_onWords nofun rfl (fun _ => Word.sum?_eq_some_iff) rfl
  case difference => exact answers_of_onWords nofun rfl (fun _ => Word.difference?_eq_some_iff) rfl
  case product => exact answers_of_onWords nofun rfl (fun _ => Word.product?_eq_some_iff) rfl
  case fails =>
    refine ⟨fun e => ?_, fun e => e ▸ divide_zero⟩
    by_contra h
    exact divide_ne_error h _ e
  case remainder =>
    intro h
    exact ⟨Word.modulus x y h, modulo_word h, Word.modulus_spec h⟩

/-- The least word over minus one: a divisor that divides, a quotient one beyond the words. -/
theorem apply_words_least :
    divide.apply (.int Int64.minValue) (.int (-1)) =
      .ok (.float ((Number.int Int64.minValue).toFloat / (Number.int (-1)).toFloat)) ∧
    ∃ r : Int64, modulo.apply (.int Int64.minValue) (.int (-1)) = .ok (.int r) ∧ r.toInt = 0 := by
  obtain ⟨-, -, -, -, quotient, -, remainder⟩ := apply_words Int64.minValue (-1)
  obtain ⟨r, run, -, bounds⟩ := remainder (by decide)
  have sign : (-1 : Int64).toInt = -1 := rfl
  exact ⟨(quotient (by decide) (by decide)).2 (by decide), r, run, by omega⟩

end ArithOp

end OpTree
