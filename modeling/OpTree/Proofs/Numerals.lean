import OpTree.Value
import OpTree.Proofs.Runs

/-!
# Numerals

The decimal text of a word reads back as the word, whatever blanks stand around it. What follows it and
belongs to no number is left alone, and only tells that the text is not a number as a whole.
-/

namespace OpTree

set_option autoImplicit false

namespace Bytes

/-! ## Digits -/

variable {d n : Nat} {b : UInt8}

theorem digit_byte (h : d < 10) : isDigit (48 + d).toUInt8 = true ∧ Literal.digitValue? (48 + d).toUInt8 = some d := by
  have hall : ∀ k : Fin 10, isDigit (48 + k.val).toUInt8 = true ∧
      Literal.digitValue? (48 + k.val).toUInt8 = some k.val := by decide
  exact hall ⟨d, h⟩

theorem digitChar_byte (h : d < 10) : d.digitChar.toNat.toUInt8 = (48 + d).toUInt8 := by
  rw [Nat.toNat_digitChar_of_lt_ten h]

theorem ofNat_eq (n : Nat) :
    ofNat n = (if n < 10 then [] else ofNat (n / 10)) ++ [(48 + n % 10).toUInt8] := by
  rw [ofNat, digits, Nat.toDigits_eq_if (by decide)]
  split
  · rename_i h
    rw [Nat.mod_eq_of_lt h, List.map_singleton, digitChar_byte h, List.nil_append]
  · rw [List.map_append, List.map_singleton, digitChar_byte (Nat.mod_lt n (by decide))]
    rfl

theorem ofNat_ne_nil (n : Nat) : ofNat n ≠ [] := by
  rw [ofNat_eq]
  simp

theorem isDigit_of_mem_ofNat (h : b ∈ ofNat n) : isDigit b = true := by
  induction n using Nat.strong_induction_on with
  | _ n ih =>
    rw [ofNat_eq, List.mem_append, List.mem_singleton] at h
    rcases h with h | rfl
    · split at h
      · cases h
      · exact ih (n / 10) (by omega) h
    · exact (digit_byte (Nat.mod_lt n (by decide))).1

end Bytes

namespace Literal

theorem natFrom?_append (base acc : Nat) (s t : Bytes) :
    natFrom? base acc (s ++ t) = (natFrom? base acc s).bind fun n => natFrom? base n t := by
  induction s generalizing acc with
  | nil => rfl
  | cons b s ih =>
    rw [List.cons_append, natFrom?, natFrom?]
    split
    · split
      · exact ih _
      · rfl
    · rfl

theorem natFrom?_ofNat (n : Nat) : natFrom? 10 0 (Bytes.ofNat n) = some n := by
  induction n using Nat.strong_induction_on with
  | _ n ih =>
    have hd := Nat.mod_lt n (show 10 > 0 by decide)
    have hinit : natFrom? 10 0 (if n < 10 then [] else Bytes.ofNat (n / 10)) = some (n / 10) := by
      split
      · rw [natFrom?, Nat.div_eq_of_lt ‹_›]
      · exact ih _ (by omega)
    rw [Bytes.ofNat_eq, natFrom?_append, hinit, Option.bind_some, natFrom?, (Bytes.digit_byte hd).2]
    simp only [hd, if_true, natFrom?]
    congr 1
    omega

theorem splitSign_of_isDigit {b : UInt8} {s : Bytes} (h : Bytes.isDigit b = true) :
    splitSign (b :: s) = (false, b :: s) := by
  unfold splitSign
  split <;> simp_all [Bytes.isDigit]

/-- The text of a word is its sign and the digits of its absolute value, which fits with this sign. -/
theorem ofInt_signed (v : Int64) : ∃ (neg : Bool) (n : Nat),
    Bytes.ofInt v.toInt = (if neg then [45] else []) ++ Bytes.ofNat n ∧ signed? neg n = some v := by
  have low : -9223372036854775808 ≤ v.toInt := v.le_toInt
  have high : v.toInt < 9223372036854775808 := v.toInt_lt
  have word : Int64.ofInt v.toInt = v := Int64.ofInt_toInt v
  have bound : Nat.pow 2 63 = 9223372036854775808 := rfl
  cases h : v.toInt with
  | ofNat n =>
    rw [h, Int.ofNat_eq_natCast] at high word
    have fits : n < Nat.pow 2 63 := by omega
    refine ⟨false, n, rfl, ?_⟩
    rw [signed?, if_neg Bool.false_ne_true, if_pos fits]
    exact congrArg some word
  | negSucc n =>
    rw [h, Int.negSucc_eq] at low word
    have fits : n + 1 ≤ Nat.pow 2 63 := by omega
    refine ⟨true, n + 1, rfl, ?_⟩
    rw [signed?, if_pos rfl, if_pos fits]
    exact congrArg some word

theorem decimalInt?_digits {neg : Bool} {n : Nat} :
    decimalInt? ((if neg then [45] else []) ++ Bytes.ofNat n) = signed? neg n := by
  have hsplit : splitSign ((if neg then [45] else []) ++ Bytes.ofNat n) = (neg, Bytes.ofNat n) := by
    cases neg with
    | true => rfl
    | false =>
      obtain ⟨b, s, hb⟩ := List.exists_cons_of_ne_nil (Bytes.ofNat_ne_nil n)
      have hdigit : Bytes.isDigit b = true := Bytes.isDigit_of_mem_ofNat (n := n) (by simp [hb])
      simpa [hb] using splitSign_of_isDigit hdigit
  simp [decimalInt?, hsplit, Bytes.ofNat_ne_nil, natFrom?_ofNat]

end Literal

namespace Bytes

/-! ## Case -/

theorem exists_digit {b : UInt8} (h : isDigit b = true) : ∃ d, d < 10 ∧ b = (48 + d).toUInt8 := by
  simp only [isDigit, Bool.and_eq_true, decide_eq_true_eq, UInt8.le_iff_toNat_le, UInt8.reduceToNat] at h
  refine ⟨b.toNat - 48, by omega, UInt8.toNat_inj.mp ?_⟩
  simp
  omega

theorem toLower_digit {b : UInt8} (h : isDigit b = true) :
    b < 0x80 ∧ lowerByte b = b ∧ Rune.encode (Rune.toLower b.toNat) = [b] := by
  have hall : ∀ d : Fin 10, (48 + d.val).toUInt8 < 0x80 ∧ lowerByte (48 + d.val).toUInt8 = (48 + d.val).toUInt8 ∧
      Rune.encode (Rune.toLower (48 + d.val).toUInt8.toNat) = [(48 + d.val).toUInt8] := by decide +kernel
  obtain ⟨d, hd, rfl⟩ := exists_digit h
  exact hall ⟨d, hd⟩

/-- A digit at the beginning stays there when a text is put into lower case, valid or not. -/
theorem toLower_cons {b : UInt8} (h : isDigit b = true) (s : Bytes) : ∃ u, toLower (b :: s) = b :: u := by
  obtain ⟨hascii, hbyte, hrune⟩ := toLower_digit h
  unfold toLower
  split
  · exact ⟨s.map lowerByte, by rw [List.map_cons, hbyte]⟩
  · refine ⟨ofRunes ((runes s).map Rune.toLower), ?_⟩
    rw [runes, decode_ascii_cons hascii, List.map_cons, List.map_cons, ofRunes, List.flatMap_cons, hrune]
    rfl

end Bytes

namespace Number

/-! ## Numbers in texts -/

variable {s w r ds : Bytes} {neg : Bool} {v : Int64}

/-- A byte that cannot go on a decimal number. -/
def Stops (b : UInt8) : Prop := Bytes.isDigit b = false ∧ b ≠ 46 ∧ b ≠ 101 ∧ b ≠ 69
  deriving Decidable

theorem Stops.lowerByte_ne {b : UInt8} (h : Stops b) : Bytes.lowerByte b ≠ 101 := by
  obtain ⟨-, -, hlower, hupper⟩ := h
  unfold Bytes.lowerByte
  split
  · exact fun e => hupper (by rw [← UInt8.add_sub_cancel b 32, e]; rfl)
  · exact hlower

theorem not_blank_of_isDigit {b : UInt8} (h : Bytes.isDigit b = true) : blanks.contains b = false := by
  have hall : ∀ d : Fin 10, blanks.contains (48 + d.val).toUInt8 = false := by decide
  obtain ⟨d, hd, rfl⟩ := Bytes.exists_digit h
  exact hall ⟨d, hd⟩

theorem stops_of_blank {b : UInt8} (h : b ∈ blanks) : Stops b := by
  simp only [blanks, List.mem_cons, List.not_mem_nil, or_false] at h
  rcases h with rfl | rfl | rfl | rfl | rfl | rfl <;> decide

theorem splitExponent_of_stops (h : ∀ b ∈ r.head?, Stops b) : splitExponent r = ([], r) := by
  cases r with
  | nil => rfl
  | cons b r => simp [splitExponent, (h b rfl).lowerByte_ne]

theorem ofText_of_trim (htrim : Bytes.trim blanks s = (if neg then [45] else []) ++ (ds ++ r)) (hne : ds ≠ [])
    (hds : ∀ b ∈ ds, Bytes.isDigit b = true) (hr : ∀ b ∈ r.head?, Stops b)
    (hv : Literal.decimalInt? ((if neg then [45] else []) ++ ds) = some v) : ofText s = (.int v, r.isEmpty) := by
  obtain ⟨b, ds, rfl⟩ := List.exists_cons_of_ne_nil hne
  have hb : Bytes.isDigit b = true := hds b (by simp)
  have hsplit : Literal.splitSign (Bytes.trim blanks s) = (neg, b :: (ds ++ r)) := by
    rw [htrim]
    cases neg with
    | true => rfl
    | false => exact Literal.splitSign_of_isDigit hb
  have hsign : (Bytes.trim blanks s).take ((Bytes.trim blanks s).length - (b :: (ds ++ r)).length) =
      if neg then [45] else [] := by
    rw [htrim]
    cases neg <;> simp
  -- The name of a number that is not finite does not begin with a digit.
  obtain ⟨u, hlow⟩ := Bytes.toLower_cons hb (ds ++ r)
  have hname : ∀ c name, Bytes.isDigit c = false → (c :: name).isPrefixOf (b :: u) = false := by
    intro c name hc
    have hne : c ≠ b := fun e => by simp [e, hb] at hc
    simp [List.isPrefixOf, hne]
  have hinf : (utf8 "inf").isPrefixOf (b :: u) = false := hname 105 _ rfl
  have hnan : (utf8 "nan").isPrefixOf (b :: u) = false := hname 110 _ rfl
  have hpast : Past Bytes.isDigit r := fun c hc => (hr c hc).1
  have hrun : b :: (ds ++ r) = (b :: ds) ++ r := rfl
  obtain ⟨htake, hdrop⟩ := span_iff.mpr ⟨hrun, hds, hpast⟩
  -- The digits are not followed by a point: this decides the match on what is left.
  have hpoint : ∀ t, r = 46 :: t → False := fun t e => (hr 46 (by simp [e])).2.1 rfl
  simp only [ofText, hsplit, hsign, hlow, hinf, hnan, htake, hdrop]
  simp [splitExponent_of_stops hr, hv]

theorem ofText_decimal (v : Int64) (hw : ∀ b ∈ w, b ∈ blanks) (hr : ∀ b ∈ r.head?, Stops b) :
    ofText (w ++ (Value.int v).text ++ r) = (.int v, r.all blanks.contains) := by
  obtain ⟨neg, n, htext, hv⟩ := Literal.ofInt_signed v
  have hdigits : ∀ b ∈ Bytes.ofNat n, Bytes.isDigit b = true := fun b => Bytes.isDigit_of_mem_ofNat
  have hne : (Value.int v).text ≠ [] := by
    rw [Value.text, htext]
    simp [Bytes.ofNat_ne_nil]
  have hplain : ∀ b ∈ (Value.int v).text, blanks.contains b = false := by
    intro b hb
    rw [Value.text, htext, List.mem_append] at hb
    rcases hb with hb | hb
    · obtain rfl : b = 45 := by cases neg <;> simp_all
      rfl
    · exact not_blank_of_isDigit (hdigits b hb)
  have hblank : ∀ b ∈ w, blanks.contains b = true := by simpa using hw
  obtain ⟨u, htrim, hprefix, hempty⟩ : ∃ u, Bytes.trim blanks (w ++ (Value.int v).text ++ r) = (Value.int v).text ++ u ∧
      u <+: r ∧ u.isEmpty = r.all blanks.contains :=
    Bytes.trim_append hblank hne (fun b hb => hplain b (List.mem_of_head? hb))
      fun b hb => hplain b (List.mem_reverse.mp (List.mem_of_head? hb))
  have hstops : ∀ b ∈ u.head?, Stops b := by
    obtain ⟨t, rfl⟩ := hprefix
    intro b hb
    refine hr b ?_
    rw [List.head?_append, hb]
    rfl
  rw [← hempty]
  refine ofText_of_trim (htrim.trans ?_) (Bytes.ofNat_ne_nil n) hdigits hstops (Literal.decimalInt?_digits.trans hv)
  rw [Value.text, htext, List.append_assoc]

/-- The text of a word reads back as the word with any blanks around it. With anything else behind it that
cannot go on the number it gives the same word, and is no number as a whole. -/
theorem ofText_text (v : Int64) {w : Bytes} (hw : ∀ b ∈ w, b ∈ blanks) :
    (∀ w', (∀ b ∈ w', b ∈ blanks) → ofText (w ++ (Value.int v).text ++ w') = (.int v, true)) ∧
    ∀ junk, (∃ b ∈ junk, b ∉ blanks) → (∀ b ∈ junk.head?, Bytes.isDigit b = false ∧ b ≠ 46 ∧ b ≠ 101 ∧ b ≠ 69) →
      ofText (w ++ (Value.int v).text ++ junk) = (.int v, false) := by
  refine ⟨fun w' hw' => ?_, fun junk hjunk hstops => ?_⟩
  · have hstops : ∀ b ∈ w'.head?, Stops b := by
      intro b hb
      exact stops_of_blank (hw' b (List.mem_of_head? hb))
    have hall : w'.all blanks.contains = true := by simpa using hw'
    rw [ofText_decimal v hw hstops, hall]
  · have hall : junk.all blanks.contains = false := by simpa using hjunk
    rw [ofText_decimal v hw hstops, hall]

/-- The least word, whose absolute value is no word, and a second number behind it. -/
theorem ofText_text_least :
    ofText (utf8 " \n-9223372036854775808\t") = (.int Int64.minValue, true) ∧
    ofText (utf8 " \n-9223372036854775808 1") = (.int Int64.minValue, false) := by
  obtain ⟨blank, junk⟩ := ofText_text Int64.minValue (w := utf8 " \n") (by decide +kernel)
  have hblank : utf8 " \n" ++ (Value.int Int64.minValue).text ++ [9] = utf8 " \n-9223372036854775808\t" := by
    decide +kernel
  have hjunk : utf8 " \n" ++ (Value.int Int64.minValue).text ++ utf8 " 1" = utf8 " \n-9223372036854775808 1" := by
    decide +kernel
  exact ⟨hblank ▸ blank [9] (by decide +kernel), hjunk ▸ junk (utf8 " 1") ⟨49, by decide, by decide⟩ (by decide +kernel)⟩

end Number

end OpTree
