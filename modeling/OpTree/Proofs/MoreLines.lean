import OpTree.Proofs.Written
import OpTree.Proofs.Spans

/-!
# Tokens and the lines behind them

A text may go on in another line. No token but a string goes on behind a line end, so the others are read in the
longer text as they were, and those that could not be read still cannot. A string that the text ended in is closed
by a quote in the next line.
-/

namespace OpTree

set_option autoImplicit false

def extend (src : Array UInt8) (r : Bytes) : Array UInt8 := src ++ (10 :: r).toArray

section Extend

variable {src : Array UInt8} {r : Bytes} {i j : Nat}

theorem size_lt_extend : src.size < (extend src r).size := by
  simp [extend]

theorem lt_extend (hi : i < src.size) : i < (extend src r).size := Nat.lt_trans hi size_lt_extend

theorem extend_getElem {hj : i < (extend src r).size} (hi : i < src.size) : (extend src r)[i] = src[i] :=
  Array.getElem_append_left hi

theorem extend_getElem? (hi : i < src.size) : (extend src r)[i]? = src[i]? :=
  Array.getElem?_append_left hi

theorem ahead_extend : Ahead (extend src r) src.size (10 :: r) := by
  simp [Ahead, extend]

theorem Ahead.extend {t : Bytes} (h : Ahead src i t) (hi : i ≤ src.size) : Ahead (extend src r) i (t ++ 10 :: r) := by
  rw [Ahead, OpTree.extend, Array.toList_append, List.drop_append_of_le_length (by simpa using hi), h]

theorem extend_at {α : Type} {f : Option UInt8 → α} (hf : f (some 10) = f none) (hi : i ≤ src.size) :
    f (extend src r)[i]? = f src[i]? := by
  rcases Nat.lt_or_eq_of_le hi with hlt | rfl
  · rw [extend_getElem? hlt]
  · rw [ahead_extend.getElem?, Array.getElem?_eq_none (Nat.le_refl _)]
    exact hf

theorem slice_extend (hj : j ≤ src.size) : slice (extend src r) i j = slice src i j := by
  simp only [slice, extend, Array.toList_extract, Array.toList_append, List.extract_eq_take_drop]
  rw [← List.drop_take, ← List.drop_take, List.take_append_of_le_length (by simpa using hj)]

theorem scanWhile_extend {p : UInt8 → Bool} (hp : p 10 = false) (hi : i ≤ src.size) :
    scanWhile (extend src r) p i = scanWhile src p i := by
  fun_induction scanWhile src p i with
  | case1 i hlt hpi ih =>
    rw [scanWhile, dif_pos (lt_extend hlt), extend_getElem hlt, if_pos hpi, ih (by omega)]
  | case2 i hlt hpi =>
    rw [scanWhile, dif_pos (lt_extend hlt), extend_getElem hlt, if_neg hpi]
  | case3 i hge =>
    obtain rfl : i = src.size := by omega
    rw [scanWhile, dif_pos size_lt_extend, ahead_extend.get, if_neg (by simp [hp])]

theorem skip_stop {s : SpaceSet} (hj : s.skip src i < src.size) :
    s.contains src[s.skip src i] = false ∧ src[s.skip src i] ≠ 59 := by
  fun_induction SpaceSet.skip s src i with
  | case1 i hlt hs ih => exact ih hj
  | case2 i hlt hs hc ih => exact ih hj
  | case3 i hlt hs hc => exact ⟨by simpa using hs, by simpa using hc⟩
  | case4 i hge => exact absurd hj hge

theorem skip_extend {s : SpaceSet} (hi : i ≤ src.size) :
    s.skip (extend src r) i = s.skip (extend src r) (s.skip src i) := by
  fun_induction SpaceSet.skip s src i with
  | case1 i hlt hs ih =>
    rw [SpaceSet.skip, dif_pos (lt_extend hlt), extend_getElem hlt, if_pos hs, ih (by omega)]
  | case2 i hlt hs hc ih =>
    rw [SpaceSet.skip, dif_pos (lt_extend hlt), extend_getElem hlt, if_neg hs, if_pos hc,
      scanWhile_extend (by decide) (by omega), ih (scanWhile_le src _ (by omega))]
  | case3 => rfl
  | case4 => rfl

theorem skip_extend_of_lt {s : SpaceSet} (hi : i ≤ src.size) (hj : s.skip src i < src.size) :
    s.skip (extend src r) i = s.skip src i := by
  obtain ⟨hblank, hsemi⟩ := skip_stop hj
  rw [skip_extend hi, SpaceSet.skip, dif_pos (lt_extend hj), extend_getElem hj, if_neg (by simp [hblank]),
    if_neg (by simpa using hsemi)]

end Extend

namespace Reading

def isUnfinished : Reading → Bool
  | ok .. => false
  | fail why _ => why.isUnfinished

end Reading

namespace Token

variable {src : Array UInt8} {r : Bytes} {i j : Nat}

theorem decodeHead_newline (b : UInt8) (s r : Bytes) :
    Bytes.decodeHead b (s ++ 10 :: r) = Bytes.decodeHead b s := by
  have htail : Bytes.isTail 10 = false := by decide
  have hthree : ¬ (if b = 0xE0 then (0xA0 : UInt8) else 0x80) ≤ 10 := by split <;> decide
  have hfour : ¬ (if b = 0xF0 then (0x90 : UInt8) else 0x80) ≤ 10 := by split <;> decide
  unfold Bytes.decodeHead
  rcases s with - | ⟨c, - | ⟨d, - | ⟨e, s⟩⟩⟩
  · rcases r with - | ⟨d, - | ⟨e, r⟩⟩ <;> simp [htail, hthree, hfour]
  · rcases r with - | ⟨e, r⟩ <;> simp [htail]
  · simp [htail]
  · rfl

theorem decodeHead_extend (b : UInt8) (hi : i ≤ src.size) :
    Bytes.decodeHead b (slice (extend src r) i (i + 3)) = Bytes.decodeHead b (slice src i (i + 3)) := by
  rcases Nat.lt_or_ge src.size (i + 3) with hlt | hge
  · obtain ⟨n, hn⟩ : ∃ n, 3 - (src.size - i) = n + 1 := ⟨_, (Nat.succ_pred (by omega)).symm⟩
    have hown : slice src i (i + 3) = src.toList.drop i :=
      (slice_take rfl 3).trans (List.take_of_length_le (by simp; omega))
    have hlonger : Ahead (extend src r) i (src.toList.drop i ++ 10 :: r) := Ahead.extend rfl hi
    rw [slice_take hlonger 3, List.take_append, List.take_of_length_le (by simp; omega), List.length_drop,
      Array.length_toList, hn, List.take_succ_cons, decodeHead_newline, hown]
  · rw [slice_extend hge]

theorem identEnd_extend (hi : i ≤ src.size) : identEnd (extend src r) i = identEnd src i := by
  fun_induction identEnd src i with
  | case1 i hlt hword ih =>
    rw [identEnd, dif_pos (lt_extend hlt), extend_getElem hlt, if_pos hword, ih (by omega)]
  | case2 i hlt hword hhigh d hd =>
    rw [identEnd, dif_pos (lt_extend hlt), extend_getElem hlt, if_neg hword, if_pos hhigh,
      decodeHead_extend _ (by omega)]
    exact if_pos hd
  | case3 i hlt hword hhigh d hd ih =>
    rw [identEnd, dif_pos (lt_extend hlt), extend_getElem hlt, if_neg hword, if_pos hhigh,
      decodeHead_extend _ (by omega)]
    exact (if_neg hd).trans (ih (codePoint_le _ hlt))
  | case4 i hlt hword hhigh =>
    rw [identEnd, dif_pos (lt_extend hlt), extend_getElem hlt, if_neg hword, if_neg hhigh]
  | case5 i hge =>
    obtain rfl : i = src.size := by omega
    rw [identEnd, dif_pos size_lt_extend, ahead_extend.get, if_neg (by decide), if_neg (by decide)]

theorem ident_extend (hi : i ≤ src.size) : ident (extend src r) i = ident src i := by
  rcases Nat.lt_or_eq_of_le hi with hlt | rfl
  · rw [ident, ident, dif_pos (lt_extend hlt), dif_pos hlt, extend_getElem hlt, identEnd_extend (by omega)]
    split
    · cases hend : identEnd src (i + 1) with
      | ok j => simp only [slice_extend (identEnd_bounds (by omega) (Or.inl hend)).2]
      | error j => rfl
    · rfl
  · rw [ident, ident, dif_pos size_lt_extend, ahead_extend.get, if_neg (by decide), dif_neg (Nat.lt_irrefl _),
      if_pos rfl]

theorem ident_unfinished (src : Array UInt8) (i : Nat) : (ident src i).isUnfinished = false := by
  rw [ident]
  split
  · split
    · split <;> rfl
    · rfl
  · split <;> rfl

theorem atom_extend (hi : i < src.size) : atom (extend src r) i = atom src i := by
  have hcolon : (if src[i]? == some 58 then i + 1 else i) ≤ src.size := by split <;> omega
  simp only [atom, extend_getElem? hi, ident_extend hcolon]

theorem atom_unfinished (src : Array UInt8) (i : Nat) : (atom src i).isUnfinished = false := by
  simp only [atom]
  split
  · rfl
  · have hident := ident_unfinished src (if src[i]? == some 58 then i + 1 else i)
    split
    · simp_all [Reading.isUnfinished]
    · rfl

theorem var_extend (hi : i < src.size) : var (extend src r) i = var src i := by
  rw [var, var, if_neg (Nat.not_lt.mpr (Nat.le_of_lt (lt_extend hi))), if_neg (Nat.not_lt.mpr (Nat.le_of_lt hi)),
    extend_getElem? hi, ident_extend (by omega)]

theorem var_unfinished (src : Array UInt8) (i : Nat) : (var src i).isUnfinished = false := by
  rw [var]
  split
  · rfl
  split
  · split
    · have hident := ident_unfinished src (i + 1)
      split
      · rfl
      · simp_all [Reading.isUnfinished, Failure.isUnfinished]
    · rfl
  · rfl

theorem isSign_extend (hi : i ≤ src.size) : isSign (extend src r)[i]? = isSign src[i]? := extend_at rfl hi

theorem decimalEnd_extend {first : Nat} {dot exp : Bool} (hi : i ≤ src.size) :
    decimalEnd (extend src r) first i dot exp = decimalEnd src first i dot exp := by
  fun_induction decimalEnd src first i dot exp with
  | case1 i dot exp hlt b hb ih =>
    rw [decimalEnd, dif_pos (lt_extend hlt), extend_getElem hlt]
    exact (if_pos hb).trans (ih (by omega))
  | case2 i dot exp hlt b hb hdot ih =>
    rw [decimalEnd, dif_pos (lt_extend hlt), extend_getElem hlt]
    exact (if_neg hb).trans ((if_pos hdot).trans (ih (by omega)))
  | case3 i dot exp hlt b hb hdot hexp ih =>
    rw [decimalEnd, dif_pos (lt_extend hlt), extend_getElem hlt, isSign_extend (by omega)]
    refine (if_neg hb).trans ((if_neg hdot).trans ((if_pos hexp).trans (ih ?_)))
    split
    · exact lt_of_at rfl ‹_›
    · omega
  | case4 i dot exp hlt b hb hdot hexp =>
    rw [decimalEnd, dif_pos (lt_extend hlt), extend_getElem hlt]
    exact (if_neg hb).trans ((if_neg hdot).trans (if_neg hexp))
  | case5 i dot exp hge =>
    obtain rfl : i = src.size := by omega
    rw [decimalEnd, dif_pos size_lt_extend, ahead_extend.get]
    have hexp : ¬ (!exp && src.size != first && Bytes.lowerByte 10 == 101) = true := by
      rw [show (Bytes.lowerByte 10 == 101) = false by decide, Bool.and_false]
      exact Bool.false_ne_true
    exact (if_neg (by decide)).trans ((if_neg (by simp)).trans (if_neg hexp))

theorem base_extend (hi : i ≤ src.size) :
    ((extend src r)[i]? == some 48 && isBaseLetter (extend src r)[i + 1]?) =
      (src[i]? == some 48 && isBaseLetter src[i + 1]?) := by
  rcases Nat.lt_or_eq_of_le hi with hlt | rfl
  · rw [extend_getElem? hlt, extend_at (f := isBaseLetter) rfl hlt]
  · rw [ahead_extend.getElem?, Array.getElem?_eq_none (Nat.le_refl _)]
    rfl

theorem num_extend (hi : i ≤ src.size) : num (extend src r) i = num src i := by
  have hfirst := (signEnd_bounds hi).2
  simp only [num, isSign_extend hi]
  generalize (if isSign src[i]? then i + 1 else i) = k at hfirst ⊢
  rw [base_extend hfirst, decimalEnd_extend hfirst, extend_at (f := (· == some 46)) rfl hfirst,
    extend_at (f := fun b => (b.map Bytes.isWord).getD false) rfl (decimalEnd_bounds hfirst).2]
  split
  · rename_i hbase
    rw [Bool.and_eq_true] at hbase
    rw [scanWhile_extend (by decide) (lt_of_at rfl hbase.2)]
  · rfl

theorem num_unfinished (src : Array UInt8) (i : Nat) : (num src i).isUnfinished = false := by
  simp only [num]
  generalize (if isSign src[i]? then i + 1 else i) = k
  split
  · split <;> rfl
  split
  · rfl
  split
  · rfl
  · split <;> rfl

/-- The text ends inside of the string that begins at `st`, or the string is read whatever follows. -/
theorem strBody_extend (st : Nat) (acc : Bytes) (hi : i ≤ src.size) :
    (∃ k, strBody src st i acc = .fail (.unfinished st) k ∧ i ≤ k ∧
      ∀ r, ∃ x, strBody (extend src (34 :: r)) st i acc = .ok x (src.size + 2)) ∨
    ((strBody src st i acc).isUnfinished = false ∧
      ∀ r, strBody (extend src r) st i acc = strBody src st i acc) := by
  fun_induction strBody src st i acc with
  | case1 i acc hlt hquote =>
    refine Or.inr ⟨rfl, fun r => ?_⟩
    rw [strBody, dif_pos (lt_extend hlt), extend_getElem hlt, if_pos hquote]
  | case2 i acc hlt hquote hslash hlt' ih =>
    have hstep : ∀ r, strBody (extend src r) st i acc =
        strBody (extend src r) st (i + 2) (unescape src[i + 1] :: acc) := by
      intro r
      rw [strBody, dif_pos (lt_extend hlt), extend_getElem hlt, if_neg hquote, if_pos hslash,
        dif_pos (lt_extend hlt'), extend_getElem hlt']
    simp only [hstep]
    refine (ih (by omega)).imp_left ?_
    rintro ⟨k, hk, hle, hgo⟩
    exact ⟨k, hk, by omega, hgo⟩
  | case3 i acc hlt hquote hslash hge =>
    obtain hend : i + 1 = src.size := by omega
    refine Or.inl ⟨i + 1, rfl, by omega, fun r => ?_⟩
    have hnext : Ahead (extend src (34 :: r)) (i + 1) (10 :: 34 :: r) := hend ▸ ahead_extend
    have hclose := hnext.tail
    rw [strBody, dif_pos (lt_extend hlt), extend_getElem hlt, if_neg hquote, if_pos hslash, dif_pos hnext.lt,
      strBody, dif_pos hclose.lt, hclose.get, if_pos (by decide)]
    have hstop : i + 2 + 1 = src.size + 2 := by omega
    exact ⟨_, congrArg _ hstop⟩
  | case4 i acc hlt hquote hslash ih =>
    have hstep : ∀ r, strBody (extend src r) st i acc = strBody (extend src r) st (i + 1) (src[i] :: acc) := by
      intro r
      rw [strBody, dif_pos (lt_extend hlt), extend_getElem hlt, if_neg hquote, if_neg hslash]
    simp only [hstep]
    refine (ih (by omega)).imp_left ?_
    rintro ⟨k, hk, hle, hgo⟩
    exact ⟨k, hk, by omega, hgo⟩
  | case5 i acc hge =>
    obtain rfl : i = src.size := by omega
    refine Or.inl ⟨_, rfl, Nat.le_refl _, fun r => ?_⟩
    have hnext : Ahead (extend src (34 :: r)) src.size (10 :: 34 :: r) := ahead_extend
    have hclose := hnext.tail
    rw [strBody, dif_pos hnext.lt, hnext.get, if_neg (by decide), if_neg (by decide), strBody, dif_pos hclose.lt,
      hclose.get, if_pos (by decide)]
    exact ⟨_, rfl⟩

end Token

end OpTree
