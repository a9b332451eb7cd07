import OpTree.Listing.Source
import Mathlib.Tactic.Common

/-!
# Tokens in a text

What lies between forms is skipped as far as it goes, and a token that stands in a text, with a byte behind it
that ends tokens, is read to its end.
-/

namespace OpTree

set_option autoImplicit false

namespace Listing

/-- Blanks and whole comments, in any number and order. -/
inductive Layout : Bytes → Prop where
  | nil : Layout []
  | blank {b : UInt8} {w : Bytes} (hb : b ∈ [32, 9, 13, 10]) (hw : Layout w) : Layout (b :: w)
  | comment {c w : Bytes} (hc : 10 ∉ c) (hw : Layout w) : Layout (59 :: c ++ 10 :: w)

/-- The letters that stand for another byte after a backslash. -/
def escapes : List (UInt8 × UInt8) := [(110, 10), (116, 9), (48, 0), (101, 27)]

/-- Bytes and a text that stands for them between quotes. A quote and a backslash are always escaped. -/
inductive Quoted : Bytes → Bytes → Prop where
  | nil : Quoted [] []
  | plain {b : UInt8} {v w : Bytes} (hquote : b ≠ 34) (hslash : b ≠ 92) (h : Quoted v w) :
      Quoted (b :: v) (b :: w)
  | itself {b : UInt8} {v w : Bytes} (hb : b ∉ escapes.map Prod.fst) (h : Quoted v w) :
      Quoted (b :: v) (92 :: b :: w)
  | letter {c b : UInt8} {v w : Bytes} (hb : (c, b) ∈ escapes) (h : Quoted v w) :
      Quoted (b :: v) (92 :: c :: w)

def IsIdent (t : Bytes) : Prop := Token.ident t.toArray 0 = .ok (.word t) t.length

def IsInteger (t : Bytes) : Prop :=
  ∃ sign digits : Bytes, t = sign ++ digits ∧ sign ∈ [[], [43], [45]] ∧ digits ≠ [] ∧
    ∀ b ∈ digits, Bytes.isDigit b = true

end Listing

/-- The text from a place on. -/
def Ahead (src : Array UInt8) (i : Nat) (t : Bytes) : Prop := src.toList.drop i = t

namespace Ahead

variable {src : Array UInt8} {i : Nat} {b : UInt8} {s t : Bytes}

theorem start (t : Bytes) : Ahead t.toArray 0 t := rfl

theorem getElem? (h : Ahead src i t) : src[i]? = t.head? := by
  rw [← h, List.head?_drop, Array.getElem?_toList]

theorem append (h : Ahead src i (s ++ t)) : Ahead src (i + s.length) t := by
  rw [Ahead, ← List.drop_drop, h, List.drop_left]

theorem tail (h : Ahead src i (b :: t)) : Ahead src (i + 1) t := append (s := [b]) h

theorem lt (h : Ahead src i (b :: t)) : i < src.size := by
  refine Nat.lt_of_not_le fun hle => ?_
  rw [Ahead, List.drop_eq_nil_of_le (by simpa using hle)] at h
  cases h

theorem get (h : Ahead src i (b :: t)) {hi : i < src.size} : src[i] = b :=
  Option.some.inj ((Array.getElem?_eq_getElem hi).symm.trans h.getElem?)

theorem head_mem (h : Ahead src i t) (hi : i < src.size) : src[i] ∈ t.head? := by
  rw [Option.mem_def, ← h.getElem?, Array.getElem?_eq_getElem hi]

theorem le (h : Ahead src i []) : src.size ≤ i := by
  have hlen := congrArg List.length h
  simp only [List.length_drop, Array.length_toList, List.length_nil] at hlen
  omega

theorem slice (h : Ahead src i (s ++ t)) : slice src i (i + s.length) = s := by
  rw [OpTree.slice, Array.toList_extract, List.extract_eq_take_drop, h, Nat.add_sub_cancel_left,
    List.take_left]

end Ahead

/-- A byte that ends every token: a blank, the start of a comment or a parenthesis. -/
def IsEdge (b : UInt8) : Prop := b ∈ [32, 9, 13, 10, 59, 40, 41]

def Edged (t : Bytes) : Prop := ∀ b ∈ t.head?, IsEdge b

section Layout

variable {src : Array UInt8} {i : Nat} {s t w : Bytes}

theorem scanWhile_ahead {p : UInt8 → Bool} (h : Ahead src i (s ++ t)) (hs : ∀ b ∈ s, p b = true)
    (ht : ∀ b ∈ t.head?, p b = false) : scanWhile src p i = i + s.length := by
  induction s generalizing i with
  | nil =>
    rw [scanWhile]
    split
    · rw [if_neg (by simp [ht _ (h.head_mem ‹_›)])]
      rfl
    · rfl
  | cons b s ih =>
    rw [scanWhile, dif_pos h.lt, h.get, if_pos (hs b (by simp)), ih h.tail fun c hc => hs c (by simp [hc])]
    simp only [List.length_cons]
    omega

/-- A mix of blanks and comments is skipped, up to a byte that does not belong to one. -/
theorem skip_layout (hw : Listing.Layout w) (h : Ahead src i (w ++ t))
    (ht : ∀ b ∈ t.head?, SpaceSet.all.contains b = false ∧ b ≠ 59) :
    SpaceSet.all.skip src i = i + w.length := by
  induction hw generalizing i with
  | nil =>
    rw [SpaceSet.skip]
    split
    · obtain ⟨hblank, hsemi⟩ := ht _ (h.head_mem ‹_›)
      rw [if_neg (by simp [hblank]), if_neg (by simpa using hsemi)]
      rfl
    · rfl
  | @blank b w hb hw ih =>
    have hblank : SpaceSet.all.contains b = true := by simpa [SpaceSet.contains, SpaceSet.all] using hb
    rw [SpaceSet.skip, dif_pos h.lt, h.get, if_pos hblank, ih h.tail]
    simp only [List.length_cons]
    omega
  | @comment c w hc hw ih =>
    rw [List.cons_append, List.cons_append, List.append_assoc, List.cons_append] at h
    have hend : scanWhile src (· != 10) (i + 1) = i + 1 + c.length :=
      scanWhile_ahead h.tail (fun b hb => by simpa using ne_of_mem_of_not_mem hb hc) (by simp)
    have hline := h.tail.append
    rw [SpaceSet.skip, dif_pos h.lt, h.get, if_neg (by decide), if_pos (by decide), hend, SpaceSet.skip,
      dif_pos hline.lt, hline.get, if_pos (by decide), ih hline.tail]
    simp only [List.length_cons, List.length_append]
    omega

end Layout

namespace Token

variable {src : Array UInt8} {i : Nat} {s t r w : Bytes}

theorem IsEdge.plain {b : UInt8} (h : IsEdge b) :
    Bytes.isWord b = false ∧ b < 128 ∧ Bytes.isDigit b = false ∧ b ≠ 46 ∧ Bytes.lowerByte b ≠ 101 := by
  simp only [IsEdge, List.mem_cons, List.not_mem_nil, or_false] at h
  rcases h with rfl | rfl | rfl | rfl | rfl | rfl | rfl <;> decide

theorem decodeHead_append {b : UInt8}
    (h : (Bytes.decodeHead b (s.take 3)).rune ≠ Rune.replacement) (r : Bytes) :
    Bytes.decodeHead b ((s ++ r).take 3) = Bytes.decodeHead b (s.take 3) := by
  unfold Bytes.decodeHead at h ⊢
  split at h
  · simp only [if_pos ‹b < 0x80›]
  split at h
  · exact absurd rfl h
  split at h
  · rcases s with _ | ⟨c, s⟩
    · exact absurd rfl h
    · simp [*]
  split at h
  · rcases s with _ | ⟨c, _ | ⟨d, s⟩⟩
    · exact absurd rfl h
    · exact absurd rfl h
    · simp [*]
  split at h
  · rcases s with _ | ⟨c, _ | ⟨d, _ | ⟨e, s⟩⟩⟩
    · exact absurd rfl h
    · exact absurd rfl h
    · exact absurd rfl h
    · simp [*]
  · exact absurd rfl h

theorem ahead_drop {k : Nat} (h : Ahead src i (t ++ r)) (hk : k ≤ t.length) :
    Ahead src (i + k) (t.drop k ++ r) := by
  rw [← List.take_append_drop k t, List.append_assoc] at h
  simpa [Nat.min_eq_left hk] using h.append

theorem slice_take (h : Ahead src i t) (n : Nat) : slice src i (i + n) = t.take n := by
  rw [slice, Array.toList_extract, List.extract_eq_take_drop, h, Nat.add_sub_cancel_left]

/-- An identifier that is a whole text ends in the same place where the text is followed by something that
ends a token. -/
theorem identEnd_ahead {k : Nat} (h : Ahead src i (t ++ r)) (hr : Edged r)
    (hk : identEnd t.toArray k = .ok t.length) : identEnd src (i + k) = .ok (i + t.length) := by
  fun_induction identEnd t.toArray k with
  | case1 k hlt hword ih =>
    have hlt : k < t.length := hlt
    have hword : Bytes.isWord t[k] = true := hword
    have hcons := ahead_drop h (Nat.le_of_lt hlt)
    rw [List.drop_eq_getElem_cons hlt, List.cons_append] at hcons
    rw [identEnd, dif_pos hcons.lt, hcons.get, if_pos hword]
    exact ih hk
  | case2 => cases hk
  | case3 k hlt hword hhigh d hd ih =>
    have hlt : k < t.length := hlt
    have hword : ¬ Bytes.isWord t[k] = true := hword
    have hhigh : 128 ≤ t[k] := hhigh
    have hcons := ahead_drop h (Nat.le_of_lt hlt)
    rw [List.drop_eq_getElem_cons hlt, List.cons_append] at hcons
    have hown : d = Bytes.decodeHead t[k] ((t.drop (k + 1)).take 3) :=
      congrArg (Bytes.decodeHead t[k]) (slice_take rfl 3)
    have hvalid : (Bytes.decodeHead t[k] ((t.drop (k + 1)).take 3)).rune ≠ Rune.replacement := by
      rw [← hown]
      simpa using hd
    have hsame : Bytes.decodeHead t[k] (slice src (i + k + 1) (i + k + 4)) = d := by
      rw [slice_take hcons.tail 3, decodeHead_append hvalid, hown]
    rw [identEnd, dif_pos hcons.lt, hcons.get, if_neg hword, if_pos hhigh, hsame]
    simp only [hd, Bool.false_eq_true, if_false]
    rw [Nat.add_assoc]
    exact ih hk
  | case4 k hlt hword hhigh =>
    have hend := Except.ok.inj hk
    simp at hlt
    omega
  | case5 k hge =>
    obtain rfl := Except.ok.inj hk
    have hrest := h.append
    rw [identEnd]
    split
    · obtain ⟨hword, hlow, -⟩ := IsEdge.plain (hr _ (hrest.head_mem ‹_›))
      rw [if_neg (by simp [hword]), if_neg (by simpa using hlow)]
    · rfl

theorem isIdent_cons {b : UInt8} {u : Bytes} : Listing.IsIdent (b :: u) ↔
    isIdentStart b = true ∧ identEnd (b :: u).toArray 1 = .ok (b :: u).length := by
  have hall : slice (b :: u).toArray 0 (b :: u).length = b :: u := by simp [slice]
  simp only [Listing.IsIdent, ident, List.size_toArray, List.length_cons, Nat.zero_lt_succ, dite_true,
    List.getElem_toArray, List.getElem_cons_zero, Nat.zero_add]
  by_cases hb : isIdentStart b = true
  · cases hend : identEnd (b :: u).toArray 1 with
    | ok k =>
      simp only [hb, if_true, true_and, Reading.ok.injEq, Except.ok.injEq, and_iff_right_iff_imp]
      rintro rfl
      rw [← List.length_cons, hall]
    | error k => simp [hb, Reading.expected]
  · simp [hb, Reading.expected]

theorem not_isIdent_nil : ¬ Listing.IsIdent [] := nofun

instance (t : Bytes) : Decidable (Listing.IsIdent t) :=
  match t with
  | [] => isFalse not_isIdent_nil
  | _ :: _ => decidable_of_iff _ isIdent_cons.symm

theorem cons_of_isIdent (h : Listing.IsIdent t) : ∃ b u, t = b :: u ∧ isIdentStart b = true ∧
    identEnd t.toArray 1 = .ok t.length := by
  rcases t with _ | ⟨b, u⟩
  · exact absurd h not_isIdent_nil
  · exact ⟨b, u, rfl, isIdent_cons.mp h⟩

theorem ident_ahead (hi : Listing.IsIdent t) (h : Ahead src i (t ++ r)) (hr : Edged r) :
    ident src i = .ok (.word t) (i + t.length) := by
  obtain ⟨b, u, rfl, hb, hend⟩ := cons_of_isIdent hi
  have hcons : Ahead src i (b :: (u ++ r)) := h
  rw [ident, dif_pos hcons.lt, hcons.get, if_pos hb, identEnd_ahead h hr hend]
  simp only [h.slice]

theorem atom_ahead (hi : Listing.IsIdent t) (h : Ahead src i (t ++ r)) (hr : Edged r) :
    atom src i = .ok (.atom i (i + t.length)) (i + t.length) := by
  obtain ⟨b, u, rfl, hb, -⟩ := cons_of_isIdent hi
  have hcolon : ¬ (src[i]? == some 58) = true := by
    rw [h.getElem?]
    intro hb'
    obtain rfl : b = 58 := by simpa using hb'
    exact absurd hb (by decide)
  simp only [atom, hcolon, Bool.false_eq_true, if_false, ident_ahead hi h hr]

theorem label_ahead (hi : Listing.IsIdent t) (h : Ahead src i (58 :: t ++ r)) (hr : Edged r) :
    atom src i = .ok (.atom i (i + (58 :: t).length)) (i + (58 :: t).length) := by
  have hcolon : (src[i]? == some 58) = true := by
    rw [h.getElem?]
    rfl
  have hident := ident_ahead hi h.tail hr
  rw [Nat.add_assoc, Nat.add_comm 1] at hident
  simp only [atom, hcolon, if_true, hident, List.length_cons]

theorem var_ahead {s : UInt8} (hs : s ∈ [36, 64, 37]) (hi : Listing.IsIdent t) (h : Ahead src i (s :: t ++ r))
    (hr : Edged r) : var src i = .ok (.var i (i + (s :: t).length)) (i + (s :: t).length) := by
  have hhead : src[i]? = some s := h.getElem?
  have hsigil : isSigil s = true := by
    simp only [List.mem_cons, List.not_mem_nil, or_false] at hs
    rcases hs with rfl | rfl | rfl <;> rfl
  have hident := ident_ahead hi h.tail hr
  rw [Nat.add_assoc, Nat.add_comm 1] at hident
  simp only [var, if_neg (Nat.not_lt.mpr (Nat.le_of_lt h.lt)), hhead, hsigil, if_true, hident, List.length_cons]

theorem decimalEnd_ahead (first : Nat) (h : Ahead src i (s ++ r)) (hs : ∀ b ∈ s, Bytes.isDigit b = true)
    (hr : Edged r) : decimalEnd src first i false false = (i + s.length, false) := by
  induction s generalizing i with
  | nil =>
    rw [decimalEnd]
    split
    · obtain ⟨-, -, hdigit, hpoint, hexp⟩ := IsEdge.plain (hr _ (h.head_mem ‹_›))
      simp [hdigit, hpoint, hexp]
    · rfl
  | cons b s ih =>
    have hcons : Ahead src i (b :: (s ++ r)) := h
    rw [decimalEnd, dif_pos hcons.lt, hcons.get]
    simp only [hs b (by simp), if_true]
    rw [ih hcons.tail fun c hc => hs c (by simp [hc])]
    simp only [List.length_cons, Nat.add_assoc, Nat.add_comm 1]

theorem digit_plain {b : UInt8} (h : Bytes.isDigit b = true) :
    b ≠ 46 ∧ isSign (some b) = false ∧ isBaseLetter (some b) = false := by
  simp only [Bytes.isDigit, Bool.and_eq_true, decide_eq_true_eq] at h
  have hlow : Bytes.lowerByte b = b := by
    refine if_neg fun hupper => ?_
    simp only [Bool.and_eq_true, decide_eq_true_eq] at hupper
    exact absurd (UInt8.le_trans hupper.1 h.2) (by decide)
  simp only [isSign, isBaseLetter, hlow, Bool.or_eq_false_iff, beq_eq_false_iff_ne, Option.some.injEq, ne_eq]
  refine ⟨?_, ⟨?_, ?_⟩, ⟨?_, ?_⟩, ?_⟩ <;>
  · rintro rfl
    exact absurd h (by decide)

theorem not_isBaseLetter {b : Option UInt8} (h : ∀ c ∈ b, Bytes.isDigit c = true ∨ IsEdge c) :
    isBaseLetter b = false := by
  cases b with
  | none => rfl
  | some c =>
    rcases h c rfl with hc | hc
    · exact (digit_plain hc).2.2
    · simp only [IsEdge, List.mem_cons, List.not_mem_nil, or_false] at hc
      rcases hc with rfl | rfl | rfl | rfl | rfl | rfl | rfl <;> rfl

theorem signEnd_ahead {sign : Bytes} (hsign : sign ∈ [[], [43], [45]]) (hs : ∀ b ∈ s, Bytes.isDigit b = true)
    (hne : s ≠ []) (h : Ahead src i (sign ++ s ++ r)) :
    (if isSign src[i]? then i + 1 else i) = i + sign.length := by
  simp only [List.mem_cons, List.not_mem_nil, or_false] at hsign
  rw [h.getElem?]
  rcases hsign with rfl | rfl | rfl
  · obtain ⟨b, s, rfl⟩ := List.exists_cons_of_ne_nil hne
    have hb := (digit_plain (hs b (by simp))).2.1
    simp [hb]
  · rfl
  · rfl

theorem num_ahead (hn : Listing.IsInteger t) (h : Ahead src i (t ++ r)) (hr : Edged r) :
    num src i = .ok (.int i (i + t.length)) (i + t.length) := by
  obtain ⟨sign, digits, rfl, hsign, hne, hdigits⟩ := hn
  have hstart := signEnd_ahead hsign hdigits hne h
  rw [List.append_assoc] at h
  have hfirst := h.append
  have hscan := decimalEnd_ahead (i + sign.length) hfirst hdigits hr
  have hlast : (src[i + sign.length + digits.length]?.map Bytes.isWord).getD false = false := by
    rw [hfirst.append.getElem?]
    cases hhead : r.head? with
    | none => rfl
    | some b => exact (IsEdge.plain (hr b hhead)).1
  obtain ⟨d, ds, rfl⟩ := List.exists_cons_of_ne_nil hne
  have hd : src[i + sign.length]? = some d := hfirst.getElem?
  have hpoint : d ≠ 46 := (digit_plain (hdigits d (by simp))).1
  have hsecond : isBaseLetter src[i + sign.length + 1]? = false := by
    refine not_isBaseLetter fun c hc => ?_
    rw [Ahead.getElem? (t := ds ++ r) hfirst.tail] at hc
    cases ds with
    | nil => exact Or.inr (hr c hc)
    | cons e ds =>
      obtain rfl := Option.some.inj hc
      exact Or.inl (hdigits _ (by simp))
  have hmoved : ¬ i + sign.length + (d :: ds).length = i + sign.length := by simp
  have hdot : (some d == some 46) = false := by simpa using hpoint
  simp only [num, hstart, hsecond, hscan, hd, hlast, hmoved, hdot, Bool.and_false, Bool.or_false, decide_false,
    Bool.false_eq_true, if_false]
  rw [List.length_append, Nat.add_assoc]

theorem unescape_itself {b : UInt8} (hb : b ∉ Listing.escapes.map Prod.fst) : unescape b = b := by
  simp only [Listing.escapes, List.map_cons, List.map_nil, List.mem_cons, List.not_mem_nil, or_false, not_or] at hb
  simp [unescape, hb]

theorem unescape_letter {c b : UInt8} (hb : (c, b) ∈ Listing.escapes) : unescape c = b := by
  simp only [Listing.escapes, List.mem_cons, List.not_mem_nil, or_false, Prod.mk.injEq] at hb
  rcases hb with ⟨rfl, rfl⟩ | ⟨rfl, rfl⟩ | ⟨rfl, rfl⟩ | ⟨rfl, rfl⟩ <;> rfl

theorem strBody_escape {st : Nat} {c : UInt8} {acc : Bytes} (h : Ahead src i (92 :: c :: t)) :
    strBody src st i acc = strBody src st (i + 2) (unescape c :: acc) := by
  rw [strBody, dif_pos h.lt, h.get, if_neg (by decide), if_pos (by decide), dif_pos h.tail.lt, h.tail.get]

theorem strBody_ahead {st : Nat} {v acc : Bytes} (hq : Listing.Quoted v w) (h : Ahead src i (w ++ 34 :: r)) :
    strBody src st i acc =
      .ok (.str st (i + w.length + 1) (acc.reverse ++ v)) (i + w.length + 1) := by
  induction hq generalizing i acc with
  | nil =>
    rw [strBody, dif_pos h.lt, h.get]
    simp
  | @plain b v w hquote hslash hq ih =>
    rw [List.cons_append] at h
    rw [strBody, dif_pos h.lt, h.get, if_neg (by simpa using hquote), if_neg (by simpa using hslash), ih h.tail]
    simp [Nat.add_assoc, Nat.add_comm 1]
  | @itself b v w hb hq ih =>
    rw [List.cons_append, List.cons_append] at h
    rw [strBody_escape h, unescape_itself hb, ih h.tail.tail]
    simp [Nat.add_comm, Nat.add_left_comm]
  | @letter c b v w hb hq ih =>
    rw [List.cons_append, List.cons_append] at h
    rw [strBody_escape h, unescape_letter hb, ih h.tail.tail]
    simp [Nat.add_comm, Nat.add_left_comm]

theorem str_ahead {v : Bytes} (hq : Listing.Quoted v w) (h : Ahead src i (34 :: w ++ [34] ++ r)) :
    str src i = .ok (.str i (i + (34 :: w ++ [34]).length) v) (i + (34 :: w ++ [34]).length) := by
  rw [List.append_assoc, List.cons_append] at h
  have hopen : (src[i]? == some 34) = true := by
    rw [h.getElem?]
    rfl
  have hbody : strBody src i (i + 1) [] = _ := strBody_ahead hq h.tail
  rw [str, if_neg (Nat.not_lt.mpr (Nat.le_of_lt h.lt)), if_pos hopen, hbody]
  simp [Nat.add_comm, Nat.add_left_comm]

end Token

end OpTree
