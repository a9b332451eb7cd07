import OpTree.Number.FloatFormat
import Mathlib.Tactic.Ring

/-!
# Widening

A format writes each of its numbers in one way, so a double that is written in a narrower format comes back
from it with all its bits.
-/

namespace OpTree

set_option autoImplicit false

def SameNumber (m : Nat) (e : Int) (q : Nat) (f : Int) : Prop :=
  ∃ k : Nat, q = m * 2 ^ k ∧ e = f + k ∨ m = q * 2 ^ k ∧ f = e + k

namespace SameNumber

variable {m q k : Nat} {e f : Int}

theorem symm (h : SameNumber m e q f) : SameNumber q f m e :=
  h.imp fun _ => Or.symm

theorem zero : SameNumber 0 e 0 f := by
  rcases Int.le_total f e with hle | hle
  · exact ⟨(e - f).toNat, Or.inl ⟨by simp, by omega⟩⟩
  · exact ⟨(f - e).toNat, Or.inr ⟨by simp, by omega⟩⟩

theorem eq_zero (h : SameNumber m e 0 f) : m = 0 := by
  obtain ⟨k, ⟨hq, -⟩ | ⟨rfl, -⟩⟩ := h
  · exact (Nat.mul_eq_zero.mp hq.symm).resolve_right (Nat.ne_of_gt (Nat.two_pow_pos k))
  · exact Nat.zero_mul _

theorem log2_mul_two_pow (hm : m ≠ 0) : (m * 2 ^ k).log2 = m.log2 + k := by
  induction k with
  | zero => simp
  | succ k ih =>
    have hne : m * 2 ^ k ≠ 0 := Nat.mul_ne_zero hm (Nat.ne_of_gt (Nat.two_pow_pos k))
    rw [show m * 2 ^ (k + 1) = 2 * (m * 2 ^ k) by rw [Nat.pow_succ]; ac_rfl, Nat.log2_two_mul hne, ih,
      Nat.add_assoc]

theorem first_digit (h : SameNumber m e q f) (hm : m ≠ 0) : e + m.log2 = f + q.log2 := by
  obtain ⟨k, ⟨rfl, rfl⟩ | ⟨rfl, rfl⟩⟩ := h
  · rw [log2_mul_two_pow hm]
    omega
  · rw [log2_mul_two_pow (by rintro rfl; simp at hm)]
    omega

/-- Moving a number to another exponent is exact if and only if the result stands for the same number. -/
theorem scale_iff : (Binary64.scale 2 (f - e) q 1).1 % (Binary64.scale 2 (f - e) q 1).2 = 0 ∧
    (Binary64.scale 2 (f - e) q 1).1 / (Binary64.scale 2 (f - e) q 1).2 = m ↔ SameNumber m e q f := by
  unfold Binary64.scale
  split
  · rename_i hd
    simp only [Nat.pow_eq, Nat.mod_one, Nat.div_one, true_and]
    constructor
    · rintro rfl
      exact ⟨(f - e).toNat, Or.inr ⟨rfl, by omega⟩⟩
    · rintro ⟨k, ⟨rfl, rfl⟩ | ⟨rfl, rfl⟩⟩
      · obtain rfl : k = 0 := by omega
        simp
      · rw [show (e + k - e).toNat = k by omega]
  · rename_i hd
    simp only [Nat.pow_eq, Nat.one_mul]
    constructor
    · rintro ⟨hmod, rfl⟩
      exact ⟨(-(f - e)).toNat, Or.inl ⟨(Nat.div_mul_cancel (Nat.dvd_of_mod_eq_zero hmod)).symm, by omega⟩⟩
    · rintro ⟨k, ⟨rfl, rfl⟩ | ⟨rfl, rfl⟩⟩
      · rw [show (-(f - (f + k))).toNat = k by omega]
        exact ⟨Nat.mul_mod_left _ _, Nat.mul_div_cancel _ (Nat.two_pow_pos k)⟩
      · omega

end SameNumber

namespace FloatFormat

variable {w : FloatFormat} {minus : Bool} {m q biased frac b : Nat} {e f : Int} {bits : UInt64}

/-- The form in which a format keeps a number: with all digits, or with the least exponent. -/
structure Holds (w : FloatFormat) (mant : Nat) (exp : Int) : Prop where
  short : mant < 2 ^ (w.fracBits + 1)
  least : w.leastExp ≤ exp
  below : exp - w.leastExp + 1 < w.topExp
  full : 2 ^ w.fracBits ≤ mant ∨ exp = w.leastExp

def join (w : FloatFormat) (minus : Bool) (biased frac : Nat) : Nat :=
  w.signBit minus + (biased * 2 ^ w.fracBits + frac)

def ofFields (w : FloatFormat) (minus : Bool) (biased frac : Nat) : Binary64 :=
  if biased = w.topExp then if frac = 0 then .infinite minus else .nan
  else if biased = 0 then .finite minus frac w.leastExp
  else .finite minus (2 ^ w.fracBits + frac) (w.leastExp + biased - 1)

def packed (w : FloatFormat) (minus : Bool) (mant : Nat) (exp : Int) : Nat :=
  w.join minus (exp - w.leastExp).toNat mant

theorem topExp_succ (w : FloatFormat) : w.topExp + 1 = 2 ^ w.expBits :=
  Nat.sub_add_cancel (Nat.two_pow_pos _)

theorem signBit_eq (w : FloatFormat) (minus : Bool) :
    w.signBit minus = (if minus then 1 else 0) * (2 ^ w.expBits * 2 ^ w.fracBits) := by
  cases minus <;> simp [signBit, Nat.pow_add, Nat.mul_comm]

theorem fields_lt (hb : biased < 2 ^ w.expBits) (hf : frac < 2 ^ w.fracBits) :
    biased * 2 ^ w.fracBits + frac < 2 ^ w.expBits * 2 ^ w.fracBits :=
  calc biased * 2 ^ w.fracBits + frac < (biased + 1) * 2 ^ w.fracBits := by rw [Nat.succ_mul]; omega
    _ ≤ 2 ^ w.expBits * 2 ^ w.fracBits := Nat.mul_le_mul_right _ hb

theorem join_lt (hb : biased < 2 ^ w.expBits) (hf : frac < 2 ^ w.fracBits) :
    w.join minus biased frac < 2 ^ (w.fracBits + w.expBits + 1) := by
  have hlow := fields_lt hb hf
  rw [join, signBit_eq, Nat.pow_succ, Nat.pow_add, Nat.mul_comm (2 ^ w.fracBits)]
  cases minus <;> simp only [Bool.false_eq_true, if_true, if_false] <;> omega

theorem decode_join (hb : biased < 2 ^ w.expBits) (hf : frac < 2 ^ w.fracBits) :
    w.decode (w.join minus biased frac) = w.ofFields minus biased frac := by
  have hlow := fields_lt hb hf
  have hpos : 0 < 2 ^ w.expBits * 2 ^ w.fracBits := Nat.mul_pos (Nat.two_pow_pos _) (Nat.two_pow_pos _)
  have hsign : (w.join minus biased frac / 2 ^ (w.fracBits + w.expBits) % 2 == 1) = minus := by
    rw [join, signBit_eq, Nat.pow_add, Nat.mul_comm (2 ^ w.fracBits), Nat.add_comm, Nat.add_mul_div_right _ _ hpos,
      Nat.div_eq_of_lt hlow]
    cases minus <;> rfl
  have hbiased : w.join minus biased frac / 2 ^ w.fracBits % 2 ^ w.expBits = biased := by
    rw [join, signBit_eq, ← Nat.mul_assoc, ← Nat.add_assoc, ← Nat.add_mul, Nat.add_comm,
      Nat.add_mul_div_right _ _ (Nat.two_pow_pos _), Nat.div_eq_of_lt hf, Nat.zero_add, Nat.mul_comm,
      Nat.mul_add_mod, Nat.mod_eq_of_lt hb]
  have hfrac : w.join minus biased frac % 2 ^ w.fracBits = frac := by
    rw [join, signBit_eq, ← Nat.mul_assoc, ← Nat.add_assoc, ← Nat.add_mul, Nat.mul_comm, Nat.mul_add_mod,
      Nat.mod_eq_of_lt hf]
  simp only [decode, Nat.pow_eq, hsign, hbiased, hfrac, ofFields]

theorem exists_join (hb : b < 2 ^ (w.fracBits + w.expBits + 1)) : ∃ minus biased frac,
    biased < 2 ^ w.expBits ∧ frac < 2 ^ w.fracBits ∧ b = w.join minus biased frac := by
  have hsign : b / 2 ^ w.fracBits / 2 ^ w.expBits < 2 := by
    rw [Nat.div_div_eq_div_mul, ← Nat.pow_add]
    exact Nat.div_lt_of_lt_mul (by rwa [← Nat.pow_succ])
  refine ⟨b / 2 ^ w.fracBits / 2 ^ w.expBits == 1, b / 2 ^ w.fracBits % 2 ^ w.expBits, b % 2 ^ w.fracBits,
    Nat.mod_lt _ (Nat.two_pow_pos _), Nat.mod_lt _ (Nat.two_pow_pos _), ?_⟩
  have hone : (if b / 2 ^ w.fracBits / 2 ^ w.expBits == 1 then 1 else 0) =
      b / 2 ^ w.fracBits / 2 ^ w.expBits := by
    generalize b / 2 ^ w.fracBits / 2 ^ w.expBits = sign at hsign ⊢
    obtain rfl | rfl : sign = 0 ∨ sign = 1 := by omega
    · rfl
    · rfl
  rw [join, signBit_eq, hone, ← Nat.mul_assoc, ← Nat.add_assoc, ← Nat.add_mul, Nat.div_add_mod', Nat.div_add_mod']

theorem holds_iff (hw : 1 < w.topExp) : w.Holds m e ↔
    m < 2 ^ w.fracBits ∧ e = w.leastExp ∨
      ∃ frac biased : Nat, frac < 2 ^ w.fracBits ∧ m = 2 ^ w.fracBits + frac ∧ 0 < biased ∧ biased < w.topExp ∧
        e = w.leastExp + biased - 1 := by
  have hpow : 2 ^ (w.fracBits + 1) = 2 ^ w.fracBits + 2 ^ w.fracBits := by omega
  constructor
  · rintro ⟨hshort, hleast, hbelow, hfull⟩
    by_cases hm : 2 ^ w.fracBits ≤ m
    · refine Or.inr ⟨m - 2 ^ w.fracBits, (e - w.leastExp).toNat + 1, ?_⟩
      exact ⟨by omega, by omega, by omega, by omega, by omega⟩
    · exact Or.inl ⟨Nat.lt_of_not_le hm, hfull.resolve_left hm⟩
  · rintro (⟨hm, rfl⟩ | ⟨frac, biased, hfrac, rfl, hpos, htop, rfl⟩)
    · exact ⟨by omega, Int.le_refl _, by omega, Or.inr rfl⟩
    · exact ⟨by omega, by omega, by omega, Or.inl (Nat.le_add_right _ _)⟩

theorem packed_least : w.packed minus m w.leastExp = w.join minus 0 m := by
  rw [packed, Int.sub_self]
  rfl

theorem packed_full (hpos : 0 < biased) :
    w.packed minus (2 ^ w.fracBits + frac) (w.leastExp + biased - 1) = w.join minus biased frac := by
  obtain ⟨d, rfl⟩ := Nat.exists_eq_succ_of_ne_zero (Nat.ne_of_gt hpos)
  have hd : (w.leastExp + (d.succ : Nat) - 1 - w.leastExp).toNat = d := by omega
  rw [packed, hd, join, join, Nat.succ_mul, Nat.add_assoc]

theorem decode_packed (hw : 1 < w.topExp) (h : w.Holds m e) :
    w.decode (w.packed minus m e) = .finite minus m e := by
  have htop := w.topExp_succ
  rcases (holds_iff hw).mp h with ⟨hm, rfl⟩ | ⟨frac, biased, hfrac, rfl, hpos, hlt, rfl⟩
  · rw [packed_least, decode_join (Nat.two_pow_pos _) hm, ofFields, if_neg (by omega), if_pos rfl]
  · rw [packed_full hpos, decode_join (by omega) hfrac, ofFields, if_neg (by omega), if_neg (by omega)]

theorem eq_packed (hw : 1 < w.topExp) (hb : b < 2 ^ (w.fracBits + w.expBits + 1))
    (h : w.decode b = .finite minus m e) : w.Holds m e ∧ b = w.packed minus m e := by
  obtain ⟨minus, biased, frac, hbiased, hfrac, rfl⟩ := exists_join hb
  rw [decode_join hbiased hfrac, ofFields] at h
  have htop := w.topExp_succ
  split at h
  · split at h <;> cases h
  split at h
  · cases h
    exact ⟨(holds_iff hw).mpr (Or.inl ⟨hfrac, rfl⟩), by rw [packed_least, ‹biased = 0›]⟩
  · cases h
    have hpos := Nat.pos_of_ne_zero ‹¬ biased = 0›
    exact ⟨(holds_iff hw).mpr (Or.inr ⟨frac, biased, hfrac, rfl, hpos, by omega, rfl⟩), (packed_full hpos).symm⟩

theorem eq_infinite (hb : b < 2 ^ (w.fracBits + w.expBits + 1)) (h : w.decode b = .infinite minus) :
    b = w.join minus w.topExp 0 := by
  obtain ⟨minus, biased, frac, hbiased, hfrac, rfl⟩ := exists_join hb
  rw [decode_join hbiased hfrac, ofFields] at h
  split at h
  · split at h
    · cases h
      rw [‹biased = w.topExp›, ‹frac = 0›]
    · cases h
  · split at h <;> cases h

theorem packed_lt (hw : 1 < w.topExp) (h : w.Holds m e) :
    w.packed minus m e < 2 ^ (w.fracBits + w.expBits + 1) := by
  have htop := w.topExp_succ
  rcases (holds_iff hw).mp h with ⟨hm, rfl⟩ | ⟨frac, biased, hfrac, rfl, hpos, hlt, rfl⟩
  · rw [packed_least]
    exact join_lt (Nat.two_pow_pos _) hm
  · rw [packed_full hpos]
    exact join_lt (by omega) hfrac

/-- The least exponent or the one at which all digits are used, whichever is greater, is the exponent of the
form that the format keeps. -/
theorem Holds.exp_eq (h : w.Holds m e) (hs : SameNumber m e q f) (hm : m ≠ 0) :
    max (f + q.log2 - w.fracBits) w.leastExp = e := by
  have hdigit := hs.first_digit hm
  have hshort : m.log2 < w.fracBits + 1 := (Nat.log2_lt hm).mpr h.short
  have hleast := h.least
  rcases h.full with hfull | rfl
  · have hlog := (Nat.le_log2 hm).mpr hfull
    omega
  · omega

/-- A number that the format holds is encoded in the form of the format, whatever form it is given in. -/
theorem encode?_of_holds (h : w.Holds m e) (hs : SameNumber m e q f) :
    w.encode? minus q f = some (w.packed minus m e) := by
  by_cases hm : m = 0
  · subst hm
    have he : e = w.leastExp := h.full.resolve_left (Nat.not_le.mpr (Nat.two_pow_pos _))
    rw [hs.symm.eq_zero, he, packed_least, encode?, if_pos rfl]
    simp [join]
  · have hq : q ≠ 0 := by
      rintro rfl
      exact hm hs.eq_zero
    obtain ⟨hmod, hdiv⟩ := SameNumber.scale_iff.mpr hs
    have hfits : (e - w.leastExp).toNat * 2 ^ w.fracBits + m < w.topExp * 2 ^ w.fracBits :=
      calc (e - w.leastExp).toNat * 2 ^ w.fracBits + m
          < ((e - w.leastExp).toNat + 2) * 2 ^ w.fracBits := by
            have hshort := h.short
            rw [Nat.pow_succ] at hshort
            rw [Nat.add_mul]
            omega
        _ ≤ w.topExp * 2 ^ w.fracBits := by
            have hbelow := h.below
            have hleast := h.least
            exact Nat.mul_le_mul_right _ (by omega)
    simp only [encode?, if_neg hq, h.exp_eq hs hm, hmod, hdiv, Nat.pow_eq, hfits, decide_true, Bool.and_self,
      if_true]
    rfl

theorem holds_of_encode? (hw : 1 < w.topExp) (h : w.encode? minus q f = some b) :
    ∃ m e, w.Holds m e ∧ SameNumber m e q f ∧ b = w.packed minus m e := by
  unfold encode? at h
  split at h
  · rename_i hq
    obtain rfl := Option.some.inj h
    have hzero : w.Holds 0 w.leastExp := (holds_iff hw).mpr (Or.inl ⟨Nat.two_pow_pos _, rfl⟩)
    exact ⟨0, w.leastExp, hzero, hq ▸ SameNumber.zero, by simp [packed_least, join]⟩
  · rename_i hq
    dsimp only at h
    split at h
    · rename_i hok
      obtain rfl := Option.some.inj h
      simp only [Bool.and_eq_true, decide_eq_true_eq, Nat.pow_eq] at hok
      generalize he : max (f + q.log2 - w.fracBits) w.leastExp = e at hok ⊢
      have hs := SameNumber.scale_iff.mp ⟨hok.1, rfl⟩
      generalize hm : (Binary64.scale 2 (f - e) q 1).1 / (Binary64.scale 2 (f - e) q 1).2 = m at hok hs ⊢
      have hne : m ≠ 0 := by
        rintro rfl
        exact hq hs.symm.eq_zero
      have hdigit := hs.first_digit hne
      have hfits := hok.2
      refine ⟨m, e, ⟨(Nat.log2_lt hne).mp (by omega), by omega, ?_, ?_⟩, hs, rfl⟩
      · by_cases hfull : 2 ^ w.fracBits ≤ m
        · have hexp : ((e - w.leastExp).toNat + 1) * 2 ^ w.fracBits < w.topExp * 2 ^ w.fracBits := by
            rw [Nat.succ_mul]
            omega
          have hlt := Nat.lt_of_mul_lt_mul_right hexp
          omega
        · have hlog := (Nat.log2_lt hne).mpr (Nat.lt_of_not_le hfull)
          omega
      · by_cases hfull : 2 ^ w.fracBits ≤ m
        · exact Or.inl hfull
        · have hlog := (Nat.log2_lt hne).mpr (Nat.lt_of_not_le hfull)
          exact Or.inr (by omega)
    · cases h

theorem lt_of_encode? (hw : 1 < w.topExp) (h : w.encode? minus q f = some b) :
    b < 2 ^ (w.fracBits + w.expBits + 1) := by
  obtain ⟨m, e, hm, -, rfl⟩ := holds_of_encode? hw h
  exact packed_lt hw hm

theorem ofBits_eq_decode (bits : UInt64) : Binary64.ofBits bits = double.decode bits.toNat := by
  have hlt : bits.toNat < 2 ^ 64 := bits.toNat_lt
  have hsign : decide (Nat.pow 2 63 ≤ bits.toNat) = (bits.toNat / Nat.pow 2 (52 + 11) % 2 == 1) := by
    rw [Bool.eq_iff_iff, decide_eq_true_eq, beq_iff_eq]
    simp only [Nat.pow_eq]
    omega
  have htop : double.topExp = 2047 := rfl
  have hleast : double.leastExp = -1074 := rfl
  have hexp : ∀ n : Nat, (n : Int) - 1075 = -1074 + n - 1 := by omega
  simp only [Binary64.ofBits, decode, htop, hleast, hsign, hexp]
  rfl

theorem toNat_lt_double (bits : UInt64) : bits.toNat < 2 ^ (double.fracBits + double.expBits + 1) :=
  bits.toNat_lt

/-- A double that is encoded in another format comes back from it with all its bits. -/
theorem widen_encode? (hw : 1 < w.topExp) (hbits : Binary64.ofBits bits = .finite minus m e)
    (h : w.encode? minus m e = some b) : w.widen b = bits := by
  rw [ofBits_eq_decode] at hbits
  obtain ⟨hm, htoNat⟩ := eq_packed (by decide) (toNat_lt_double bits) hbits
  obtain ⟨q, f, hq, hs, rfl⟩ := holds_of_encode? hw h
  rw [widen, decode_packed hw hq]
  dsimp only
  rw [encode?_of_holds hm hs.symm, ← htoNat]
  simp

theorem widen_infinite (hbits : Binary64.ofBits bits = .infinite minus) :
    w.widen (w.join minus w.topExp 0) = bits := by
  rw [ofBits_eq_decode] at hbits
  have htoNat := eq_infinite (toNat_lt_double bits) hbits
  have htop := w.topExp_succ
  rw [widen, decode_join (by omega) (Nat.two_pow_pos _), ofFields, if_pos rfl, if_pos rfl]
  dsimp only
  rw [join, Nat.add_zero] at htoNat
  rw [Nat.pow_eq, ← htoNat]
  simp

end FloatFormat

end OpTree
