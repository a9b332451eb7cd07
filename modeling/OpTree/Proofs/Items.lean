import OpTree.Proofs.Spellings
import Mathlib.Tactic.Ring
import Mathlib.Tactic.IntervalCases

/-!
# Items and their bytes

The canonical bytes of an item spell it, however short its heads and doubles are made, and what the reader takes for
an item is one: the bytes that it takes off the front of a text spell what it answers.
-/

namespace OpTree

set_option autoImplicit false

namespace Cbor

theorem Spells.append {cs ds : List Cbor} {b t : Bytes} (hc : Spells cs b) (hd : Spells ds t) :
    Spells (cs ++ ds) (b ++ t) := by
  induction hc with
  | nil => exact hd
  | atom h _ ih => simpa only [List.cons_append, List.append_assoc] using Spells.atom h ih
  | array h hs _ _ ih => simpa only [List.cons_append, List.append_assoc] using Spells.array h hs ih
  | openArray hs _ _ ih => simpa only [List.cons_append, List.append_assoc] using Spells.openArray hs ih
  | map h hn hs _ _ ih => simpa only [List.cons_append, List.append_assoc] using Spells.map h hn hs ih
  | openMap hn hs _ _ ih => simpa only [List.cons_append, List.append_assoc] using Spells.openMap hn hs ih
  | tag h hs _ _ ih => simpa only [List.cons_append, List.append_assoc] using Spells.tag h hs ih

theorem Atom.spells {c : Cbor} {b : Bytes} (h : Atom c b) : Spells [c] b := by
  have hrow := Spells.atom h .nil
  rwa [List.append_nil] at hrow

section Canonical

variable {major n : Nat} {bits : UInt64}

theorem leads_head (h : n < 2 ^ 64) : Leads major n (head major n) := by
  unfold head
  simp only [Nat.pow_eq]
  split
  · exact .short ‹_›
  split
  · exact .wide (k := 0) (by decide) ‹_›
  split
  · exact .wide (k := 1) (by decide) ‹_›
  split
  · exact .wide (k := 2) (by decide) ‹_›
  · exact .wide (k := 3) (by decide) h

/-- A double that is a number is spelled with all its bits, however narrow it is written. -/
theorem atom_floatBytes (h : Binary64.ofBits bits ≠ .nan) : Atom (.float bits) (floatBytes bits) := by
  have halfPlain : 1 < FloatFormat.half.topExp := by decide
  have singlePlain : 1 < FloatFormat.single.topExp := by decide
  unfold floatBytes
  split
  · exact absurd ‹_› h
  · rename_i minus hbits
    have hwide : (if minus then 0xfc00 else 0x7c00) =
        FloatFormat.half.join minus FloatFormat.half.topExp 0 := by
      cases minus <;> decide
    have hatom := Atom.half (n := if minus then 0xfc00 else 0x7c00) (by split <;> decide)
    rwa [hwide, FloatFormat.widen_infinite hbits, ← hwide] at hatom
  · rename_i minus mant exp hbits
    split
    · rename_i b hhalf
      have hlt : b < 2 ^ (FloatFormat.half.fracBits + FloatFormat.half.expBits + 1) :=
        FloatFormat.lt_of_encode? halfPlain hhalf
      have hatom := Atom.half hlt
      rwa [FloatFormat.widen_encode? halfPlain hbits hhalf] at hatom
    · rename_i b _ hsingle
      have hlt : b < 2 ^ (FloatFormat.single.fracBits + FloatFormat.single.expBits + 1) :=
        FloatFormat.lt_of_encode? singlePlain hsingle
      have hatom := Atom.single hlt
      rwa [FloatFormat.widen_encode? singlePlain hbits hsingle] at hatom
    · have hatom := Atom.double bits.toNat_lt
      simpa using hatom

end Canonical

mutual

theorem spells_encode {c : Cbor} (hc : c.IsPlain) : Spells [c] (encode c) := by
  match c with
  | .nat n => exact (Atom.nat (leads_head hc)).spells
  | .neg n => exact (Atom.neg (leads_head hc)).spells
  | .bytes b => exact (Atom.bytes (leads_head hc)).spells
  | .text b => exact (Atom.text (leads_head hc)).spells
  | .array cs =>
    have hrow := Spells.array (leads_head hc.1) (spells_encodeAll hc.2) .nil
    rwa [List.append_nil] at hrow
  | .map cs =>
    obtain ⟨heven, hlen, hall⟩ := hc
    have hdouble := (Nat.mul_div_cancel' (Nat.dvd_of_mod_eq_zero heven)).symm
    have hrow := Spells.map (leads_head hlen) hdouble (spells_encodeAll hall) .nil
    rwa [List.append_nil] at hrow
  | .simple n =>
    rcases hc with hn | ⟨hlow, hhigh⟩
    · have hatom := (Atom.simple hn).spells
      rwa [← (show head 7 n = [lead 7 n] from if_pos hn)] at hatom
    · have hatom := (Atom.wideSimple hlow hhigh).spells
      have hhead : head 7 n = lead 7 24 :: bigEndian 1 n := by
        rw [head, if_neg (by omega), if_pos (show n < Nat.pow 2 8 from hhigh)]
      rwa [← hhead] at hatom
  | .float bits => exact (atom_floatBytes hc).spells

theorem spells_encodeAll {cs : List Cbor} (hcs : AllPlain cs) : Spells cs (encodeAll cs) := by
  match cs with
  | [] => exact .nil
  | c :: cs => exact (spells_encode hcs.1).append (spells_encodeAll hcs.2)

end

/-! ### What the reader accepts -/

section Heads

variable {s r a : Bytes} {hd : Head} {w m x : Nat}

theorem bigEndian_add_mul : bigEndian w (m + x * 256 ^ w) = bigEndian w m := by
  induction w generalizing x with
  | zero => rfl
  | succ w ih =>
    have hpow : x * 256 ^ (w + 1) = x * 256 * 256 ^ w := by rw [Nat.pow_succ, Nat.mul_assoc, Nat.mul_comm (256 ^ w)]
    have hdigit : (m + x * 256 * 256 ^ w) / 256 ^ w % 256 = m / 256 ^ w % 256 := by
      rw [Nat.add_mul_div_right _ _ (Nat.pow_pos (by decide)), Nat.add_mul_mod_self_right]
    rw [bigEndian, bigEndian, hpow, ih]
    simp only [Nat.pow_eq, hdigit]

theorem foldl_ofBigEndian (z : Nat) : a.foldl (fun n (x : UInt8) => n * 256 + x.toNat) z =
    z * 256 ^ a.length + ofBigEndian a := by
  induction a generalizing z with
  | nil => simp [ofBigEndian]
  | cons x a ih =>
    have hcons : ofBigEndian (x :: a) = x.toNat * 256 ^ a.length + ofBigEndian a := by
      rw [ofBigEndian, List.foldl_cons, ih, Nat.zero_mul, Nat.zero_add]
    rw [List.foldl_cons, ih, hcons, List.length_cons, Nat.pow_succ]
    ring

theorem bigEndian_ofBigEndian (a : Bytes) :
    ofBigEndian a < 256 ^ a.length ∧ bigEndian a.length (ofBigEndian a) = a := by
  induction a with
  | nil => exact ⟨Nat.one_pos, rfl⟩
  | cons x a ih =>
    obtain ⟨hlt, hbytes⟩ := ih
    have hx : x.toNat + 1 ≤ 256 := x.toNat_lt
    have hcons : ofBigEndian (x :: a) = ofBigEndian a + x.toNat * 256 ^ a.length := by
      rw [ofBigEndian, List.foldl_cons, foldl_ofBigEndian, Nat.zero_mul, Nat.zero_add, Nat.add_comm]
    constructor
    · have hscaled := Nat.mul_le_mul_right (256 ^ a.length) hx
      rw [Nat.add_mul, Nat.one_mul] at hscaled
      rw [hcons, List.length_cons, Nat.pow_succ, Nat.mul_comm _ 256]
      omega
    · have hdigit : (ofBigEndian a + x.toNat * 256 ^ a.length) / 256 ^ a.length % 256 = x.toNat := by
        rw [Nat.add_mul_div_right _ _ (Nat.pow_pos (by decide)), Nat.div_eq_of_lt hlt, Nat.zero_add,
          Nat.mod_eq_of_lt hx]
      rw [List.length_cons, bigEndian, hcons, bigEndian_add_mul, hbytes, Nat.pow_eq, hdigit]
      simp

/-- The heads that the reader takes: one that tells an argument, or one of an open length. -/
inductive IsHead : Head → Bytes → Prop where
  | short {major n : Nat} (h : n < 24) : IsHead ⟨major, n, n⟩ [lead major n]
  | wide {major n k : Nat} (hk : k < 4) (h : n < 256 ^ 2 ^ k) :
      IsHead ⟨major, 24 + k, n⟩ (lead major (24 + k) :: bigEndian (2 ^ k) n)
  | opened {major : Nat} : IsHead ⟨major, 31, 0⟩ [lead major 31]

theorem IsHead.leads (h : IsHead hd a) (hopen : hd.isOpen = false) : Leads hd.major hd.arg a := by
  cases h with
  | short hn => exact .short hn
  | wide hk hn => exact .wide hk hn
  | opened => cases hopen

theorem IsHead.eq_of_isOpen (h : IsHead hd a) (hopen : hd.isOpen = true) : a = [lead hd.major 31] := by
  cases h with
  | short hn =>
    rw [isOpen_eq_false (by omega)] at hopen
    cases hopen
  | wide hk hn =>
    rw [isOpen_eq_false (by omega)] at hopen
    cases hopen
  | opened => rfl

theorem split?_eq_some {n : Nat} {t : Bytes} (h : split? n s = some (a, t)) : s = a ++ t ∧ a.length = n := by
  unfold split? at h
  split at h
  · cases h
    exact ⟨(List.take_append_drop n s).symm, List.length_take_of_le ‹_›⟩
  · cases h

theorem lead_eq (x : UInt8) : lead (x.toNat / 32) (x.toNat % 32) = x := by
  rw [lead, Nat.div_add_mod']
  simp

theorem readHead_sound (h : readHead s = some (hd, r)) : hd.major < 8 ∧ ∃ a, s = a ++ r ∧ IsHead hd a := by
  cases s with
  | nil => cases h
  | cons x s =>
    have hx := x.toNat_lt
    have hlead := lead_eq x
    have hmajor : x.toNat / 32 < 8 := by omega
    simp only [readHead] at h
    split at h
    · rename_i hinfo
      have hhead : IsHead ⟨x.toNat / 32, x.toNat % 32, x.toNat % 32⟩ _ := .short hinfo
      rw [hlead] at hhead
      cases h
      exact ⟨hmajor, [x], rfl, hhead⟩
    split at h
    · rename_i hlow hinfo
      obtain ⟨⟨b, t⟩, hsplit, heq⟩ := Option.bind_eq_some_iff.mp h
      clear h
      obtain ⟨rfl, hlen⟩ := split?_eq_some hsplit
      obtain ⟨hlt, hbytes⟩ := bigEndian_ofBigEndian b
      obtain ⟨k, hk⟩ : ∃ k, x.toNat % 32 = 24 + k := ⟨x.toNat % 32 - 24, by omega⟩
      rw [hk] at hlead
      rw [hlen, hk, Nat.add_sub_cancel_left] at hlt hbytes
      have hhead : IsHead ⟨x.toNat / 32, 24 + k, ofBigEndian b⟩ _ := .wide (by omega) hlt
      rw [hlead, ← Nat.pow_eq, hbytes] at hhead
      cases heq
      exact ⟨hmajor, x :: b, rfl, by rwa [hk]⟩
    split at h
    · cases h
    · rename_i hhigh
      have hinfo : x.toNat % 32 = 31 := by omega
      have hhead : IsHead ⟨x.toNat / 32, 31, 0⟩ _ := .opened
      rw [hinfo] at hlead h
      rw [hlead] at hhead
      cases h
      exact ⟨hmajor, [x], rfl, hhead⟩

end Heads

/-- A reader of items takes off the front of a text what spells its answer. -/
def Sound (one : Bytes → Option (Cbor × Bytes)) : Prop :=
  ∀ s c r, one s = some (c, r) → ∃ b, s = b ++ r ∧ Spells [c] b

section Sound

variable {one : Bytes → Option (Cbor × Bytes)} {s r a : Bytes} {hd : Head} {c : Cbor} {cs : List Cbor}
  {ss : List Bytes}

theorem eq_break_of_head? (h : (s.head? == some breakByte) = true) : s = breakByte :: s.tail := by
  cases s with
  | nil => cases h
  | cons x s =>
    have hx : x = breakByte := by simpa using h
    rw [hx]
    rfl

theorem chunks?_sound {major : Nat} {k : Nat} (h : chunks? major k s = some (ss, r)) :
    ∃ b, s = b ++ breakByte :: r ∧ Chunks major ss b := by
  induction k generalizing s ss with
  | zero => cases h
  | succ k ih =>
    rw [chunks?] at h
    split at h
    · rename_i hbreak
      cases h
      exact ⟨[], eq_break_of_head? hbreak, .nil⟩
    · obtain ⟨⟨hd, t⟩, hread, h⟩ := Option.bind_eq_some_iff.mp h
      dsimp only at h
      split at h
      · cases h
      · rename_i hkind
        obtain ⟨hmajor, hopen⟩ : hd.major = major ∧ hd.isOpen = false := by simpa using hkind
        obtain ⟨⟨p, u⟩, hsplit, h⟩ := Option.bind_eq_some_iff.mp h
        obtain ⟨⟨ps, v⟩, hrest, h⟩ := Option.bind_eq_some_iff.mp h
        cases h
        obtain ⟨-, b, rfl, hhead⟩ := readHead_sound hread
        obtain ⟨rfl, hlen⟩ := split?_eq_some hsplit
        obtain ⟨q, rfl, hchunks⟩ := ih hrest
        have hleads := hhead.leads hopen
        rw [hmajor, ← hlen] at hleads
        exact ⟨b ++ p ++ q, by simp, .cons hleads hchunks⟩

theorem many?_sound (hone : Sound one) {n : Nat} (h : many? one n s = some (cs, r)) :
    cs.length = n ∧ ∃ b, s = b ++ r ∧ Spells cs b := by
  induction n generalizing s cs with
  | zero =>
    cases h
    exact ⟨rfl, [], rfl, .nil⟩
  | succ n ih =>
    obtain ⟨⟨c, t⟩, hc, h⟩ := Option.bind_eq_some_iff.mp h
    obtain ⟨⟨ds, u⟩, hds, h⟩ := Option.bind_eq_some_iff.mp h
    cases h
    obtain ⟨b, rfl, hfirst⟩ := hone _ _ _ hc
    obtain ⟨hlen, q, rfl, hrest⟩ := ih hds
    exact ⟨congrArg Nat.succ hlen, b ++ q, by simp, hfirst.append hrest⟩

theorem untilBreak?_sound (hone : Sound one) {k : Nat} (h : untilBreak? one k s = some (cs, r)) :
    ∃ b, s = b ++ breakByte :: r ∧ Spells cs b := by
  induction k generalizing s cs with
  | zero => cases h
  | succ k ih =>
    rw [untilBreak?] at h
    split at h
    · rename_i hbreak
      cases h
      exact ⟨[], eq_break_of_head? hbreak, .nil⟩
    · obtain ⟨⟨c, t⟩, hc, h⟩ := Option.bind_eq_some_iff.mp h
      obtain ⟨⟨ds, u⟩, hds, h⟩ := Option.bind_eq_some_iff.mp h
      cases h
      obtain ⟨b, rfl, hfirst⟩ := hone _ _ _ hc
      obtain ⟨q, rfl, hrest⟩ := ih hds
      exact ⟨b ++ q, by simp, hfirst.append hrest⟩

theorem items?_sound (hone : Sound one) {most k : Nat} (h : items? one most hd k s = some (cs, r)) :
    (hd.isOpen = false ∧ cs.length = k * hd.arg ∧ ∃ b, s = b ++ r ∧ Spells cs b) ∨
      (hd.isOpen = true ∧ cs.length % k = 0 ∧ ∃ b, s = b ++ breakByte :: r ∧ Spells cs b) := by
  unfold items? at h
  split at h
  · rename_i hopen
    obtain ⟨⟨ds, t⟩, hds, h⟩ := Option.bind_eq_some_iff.mp h
    dsimp only at h
    split at h
    · rename_i hlen
      cases h
      rw [Bool.and_eq_true, decide_eq_true_eq] at hlen
      exact .inr ⟨hopen, hlen.1, untilBreak?_sound hone hds⟩
    · cases h
  · rename_i hopen
    split at h
    · exact .inl ⟨by simpa using hopen, many?_sound hone h⟩
    · cases h

theorem primitive?_sound (hhead : IsHead hd a) (hmajor : hd.major = 7) (h : primitive? hd = some c) : Atom c a := by
  cases hhead with
  | @short major n hn =>
    obtain rfl : major = 7 := hmajor
    rw [primitive?_short hn] at h
    cases h
    exact .simple hn
  | @wide major n k hk hn =>
    obtain rfl : major = 7 := hmajor
    interval_cases k
    · unfold primitive? at h
      simp only at h
      split at h
      · cases h
      · cases h
        exact .wideSimple (by omega) hn
    · cases h
      exact .half hn
    · cases h
      exact .single hn
    · cases h
      exact .double hn
  | opened => cases h

theorem string_sound {f : List Bytes → Cbor} {g : Bytes → Cbor} {k : Nat} (hhead : IsHead hd a)
    (h : (if hd.isOpen then (chunks? hd.major k s).map fun (ps, s) => (f ps, s)
      else (split? hd.arg s).map fun (b, s) => (g b, s)) = some (c, r)) :
    (∃ ps b, c = f ps ∧ a = [lead hd.major 31] ∧ s = b ++ breakByte :: r ∧ Chunks hd.major ps b) ∨
      ∃ b, c = g b ∧ s = b ++ r ∧ Leads hd.major b.length a := by
  split at h
  · rename_i hopen
    obtain ⟨⟨ps, t⟩, hps, hc⟩ := Option.map_eq_some_iff.mp h
    cases hc
    obtain ⟨b, rfl, hchunks⟩ := chunks?_sound hps
    exact .inl ⟨ps, b, rfl, hhead.eq_of_isOpen hopen, rfl, hchunks⟩
  · rename_i hopen
    obtain ⟨⟨b, t⟩, hb, hc⟩ := Option.map_eq_some_iff.mp h
    cases hc
    obtain ⟨rfl, hlen⟩ := split?_eq_some hb
    have hleads := hhead.leads (by simpa using hopen)
    rw [← hlen] at hleads
    exact .inr ⟨b, rfl, rfl, hleads⟩

end Sound

section Items

variable {l : Limits}

theorem item?_sound (fuel levels : Nat) : Sound (item? l fuel levels) := by
  induction fuel generalizing levels with
  | zero =>
    intro s c r h
    cases h
  | succ fuel ih =>
    intro s c r h
    obtain ⟨⟨hd, t⟩, hread, -⟩ := Option.bind_eq_some_iff.mp h
    rw [item?_of_readHead hread] at h
    obtain ⟨hlt, a, rfl, hhead⟩ := readHead_sound hread
    obtain ⟨major, info, n⟩ := hd
    dsimp only at hlt
    interval_cases major <;> simp only at h
    · split at h
      · cases h
      · rename_i hopen
        cases h
        exact ⟨a, rfl, (Atom.nat (hhead.leads (by simpa using hopen))).spells⟩
    · split at h
      · cases h
      · rename_i hopen
        cases h
        exact ⟨a, rfl, (Atom.neg (hhead.leads (by simpa using hopen))).spells⟩
    · have hstring := string_sound (f := fun ps => .bytes ps.flatten) (g := .bytes) hhead h
      obtain ⟨ps, b, rfl, rfl, rfl, hchunks⟩ | ⟨b, rfl, rfl, hleads⟩ := hstring
      · exact ⟨lead 2 31 :: (b ++ [breakByte]), by simp, (Atom.openBytes hchunks).spells⟩
      · exact ⟨a ++ b, (List.append_assoc _ _ _).symm, (Atom.bytes hleads).spells⟩
    · have hstring := string_sound (f := .pieces) (g := .text) hhead h
      obtain ⟨ps, b, rfl, rfl, rfl, hchunks⟩ | ⟨b, rfl, rfl, hleads⟩ := hstring
      · exact ⟨lead 3 31 :: (b ++ [breakByte]), by simp, (Atom.openText hchunks).spells⟩
      · exact ⟨a ++ b, (List.append_assoc _ _ _).symm, (Atom.text hleads).spells⟩
    · split at h
      · cases h
      · obtain ⟨⟨cs, u⟩, hitems, hc⟩ := Option.map_eq_some_iff.mp h
        cases hc
        obtain ⟨hopen, hlen, b, rfl, hrow⟩ | ⟨hopen, -, b, rfl, hrow⟩ := items?_sound (ih _) hitems
        · have hleads := hhead.leads hopen
          rw [Nat.one_mul] at hlen
          rw [← hlen] at hleads
          exact ⟨a ++ b, (List.append_assoc _ _ _).symm, by simpa using Spells.array hleads hrow .nil⟩
        · rw [hhead.eq_of_isOpen hopen]
          exact ⟨lead 4 31 :: (b ++ [breakByte]), by simp, by simpa using Spells.openArray hrow .nil⟩
    · split at h
      · cases h
      · obtain ⟨⟨cs, u⟩, hitems, hc⟩ := Option.map_eq_some_iff.mp h
        cases hc
        obtain ⟨hopen, hlen, b, rfl, hrow⟩ | ⟨hopen, heven, b, rfl, hrow⟩ := items?_sound (ih _) hitems
        · exact ⟨a ++ b, (List.append_assoc _ _ _).symm, by simpa using Spells.map (hhead.leads hopen) hlen hrow .nil⟩
        · have hlen : cs.length = 2 * (cs.length / 2) := by omega
          rw [hhead.eq_of_isOpen hopen]
          exact ⟨lead 5 31 :: (b ++ [breakByte]), by simp, by simpa using Spells.openMap hlen hrow .nil⟩
    · split at h
      · cases h
      · rename_i hrefused
        obtain ⟨⟨d, u⟩, hone, hc⟩ := Option.map_eq_some_iff.mp h
        cases hc
        rw [Bool.or_eq_true, not_or] at hrefused
        obtain ⟨b, rfl, hrow⟩ := ih _ _ _ _ hone
        have hleads := hhead.leads (by simpa using hrefused.1)
        exact ⟨a ++ b, (List.append_assoc _ _ _).symm, by simpa using Spells.tag hleads hrow .nil⟩
    · obtain ⟨d, hd, hc⟩ := Option.map_eq_some_iff.mp h
      cases hc
      exact ⟨a, rfl, (primitive?_sound hhead rfl hd).spells⟩

theorem decode?_eq_some_iff {c : Cbor} {b : Bytes} :
    decode? l b = some c ↔ Spells [c] b ∧ within l l.levels c = true := by
  constructor
  · intro h
    obtain ⟨⟨d, r⟩, hitem, hrest⟩ := Option.bind_eq_some_iff.mp h
    dsimp only at hrest
    split at hrest
    · rename_i hempty
      cases hrest
      obtain rfl := List.isEmpty_iff.mp hempty
      obtain ⟨a, rfl, hrow⟩ := item?_sound _ _ _ _ _ hitem
      have hread := (hrow.read (l := l) ((a ++ []).length + 1) l.levels (by simp)).single []
      rw [hitem] at hread
      rw [List.append_nil]
      split at hread
      · exact ⟨hrow, ‹_›⟩
      · cases hread
    · cases hrest
  · intro h
    obtain ⟨hrow, hwithin⟩ := h
    have hread := (hrow.read (l := l) (b.length + 1) l.levels (Nat.lt_succ_self _)).single []
    rw [List.append_nil, hwithin, if_pos rfl] at hread
    rw [decode?, hread]
    rfl

end Items

end Cbor

end OpTree
