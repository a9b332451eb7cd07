import OpTree.Proofs.MoreLines

/-!
# Texts that end inside of a form

What was read of a text is read again when lines follow it: whole forms, and failures that no line can mend. A form
that the text ended in can be brought to its end, and this is what its failure says, unless the text ended with the
parenthesis that opens a list: that failure is lost among the alternatives of a form.
-/

namespace OpTree

set_option autoImplicit false

namespace Listing

variable {src : Array UInt8} {i j : Nat} {t : Bytes}

/-- What more text does to a reading: it completes a form that the text ended in, with `Next` behind it, or leaves
the reading as it is. Where the text ended with an open parenthesis nothing is promised of a failure. -/
inductive Prospect (Next : Bytes → Prop) (read : Array UInt8 → Reading) (src : Array UInt8) (i : Nat) : Prop where
  | unfinished {why : Failure} {k : Nat} (hread : read src = .fail why k) (hwhy : why.isUnfinished = true)
      (hk : i < k ∨ k = i ∧ i = src.size) (s : Bytes)
      (hmore : ∀ r, Next r → ∃ x, read (extend src (s ++ r)) = .ok x (src.size + 1 + s.length))
  | same (hread : (read src).isUnfinished = false) (hmore : ∀ r, read (extend src r) = read src)
  | bare {why : Failure} {k : Nat} (hread : read src = .fail why k) (hwhy : why.isUnfinished = false)
      (hlast : src.back? = some 40)

theorem Prospect.earlier {Next : Bytes → Prop} {read read' : Array UInt8 → Reading} (h : Prospect Next read src j)
    (hij : i < j) (hown : read' src = read src) (hext : ∀ r, read' (extend src r) = read (extend src r)) :
    Prospect Next read' src i := by
  rcases h with ⟨hread, hwhy, hk, s, hmore⟩ | ⟨hread, hmore⟩ | ⟨hread, hwhy, hlast⟩
  · exact .unfinished (hown.trans hread) hwhy (by omega) s fun r hr => hext _ ▸ hmore r hr
  · exact .same (hown ▸ hread) fun r => (hext r).trans ((hmore r).trans hown.symm)
  · exact .bare (hown.trans hread) hwhy hlast

theorem firstOf_unfinished {st : Nat} {otherwise : Bytes} {kept : Option (Failure × Nat)}
    {rs : List (Bytes × Reading)} (hkept : ∀ p ∈ kept, p.1.isUnfinished = false)
    (hrs : ∀ p ∈ rs, p.2.isUnfinished = false) :
    (Reading.firstOf st otherwise kept rs).isUnfinished = false := by
  induction rs generalizing kept with
  | nil =>
    cases kept with
    | none => rfl
    | some p => exact hkept p rfl
  | cons p rs ih =>
    obtain ⟨name, q⟩ := p
    have hrest : ∀ p ∈ rs, p.2.isUnfinished = false := fun p hp => hrs p (.tail _ hp)
    have hq : q.isUnfinished = false := hrs _ (.head _)
    cases q with
    | ok x j => rfl
    | fail why j =>
      simp only [Reading.firstOf]
      split
      · exact hq
      split
      · exact ih hkept hrest
      · refine ih ?_ hrest
        rintro _ ⟨⟩
        exact hq

theorem mem_of_firstOf_ok {st j : Nat} {otherwise : Bytes} {kept : Option (Failure × Nat)} {x : Form}
    {rs : List (Bytes × Reading)} (h : Reading.firstOf st otherwise kept rs = .ok x j) :
    ∃ p ∈ rs, p.2 = .ok x j := by
  induction rs generalizing kept with
  | nil => cases kept <;> cases h
  | cons p rs ih =>
    obtain ⟨name, q⟩ := p
    cases q with
    | ok y k =>
      cases h
      exact ⟨_, .head _, rfl⟩
    | fail why k =>
      simp only [Reading.firstOf] at h
      split at h
      · cases h
      split at h
      · obtain ⟨p, hp, hok⟩ := ih h
        exact ⟨p, .tail _ hp, hok⟩
      · obtain ⟨p, hp, hok⟩ := ih h
        exact ⟨p, .tail _ hp, hok⟩

theorem firstOf_passes {st : Nat} {otherwise : Bytes} {kept : Option (Failure × Nat)}
    {rs : List (Bytes × Reading)} (h : ∀ p ∈ rs, Passes p.2 st) :
    Reading.firstOf st otherwise kept rs = Reading.firstOf st otherwise kept [] := by
  induction rs with
  | nil => rfl
  | cons p rs ih =>
    obtain ⟨name, q⟩ := p
    obtain ⟨why, rfl, hwhy⟩ := h _ (.head _)
    simp only [Reading.firstOf, hwhy, decide_true, Bool.true_or, if_true, Bool.false_eq_true, if_false]
    exact ih fun p hp => h p (.tail _ hp)

theorem firstOf_cons_passes {st : Nat} {otherwise : Bytes} {p : Bytes × Reading} {rs : List (Bytes × Reading)}
    (h : ∀ p ∈ rs, Passes p.2 st) :
    Reading.firstOf st otherwise none (p :: rs) = Reading.firstOf st otherwise none [p] := by
  obtain ⟨name, q⟩ := p
  cases q with
  | ok x j => rfl
  | fail why j => simp only [Reading.firstOf, firstOf_passes h]

theorem atom_passes {b : UInt8} (h : Ahead src i (b :: t)) (hcolon : b ≠ 58) (hb : Token.isIdentStart b = false) :
    Passes (Token.atom src i) i := by
  have hhead : (src[i]? == some 58) = false := by
    rw [h.getElem?]
    simpa using hcolon
  simp only [Token.atom, hhead, Bool.false_eq_true, if_false]
  rw [Token.ident, dif_pos h.lt, h.get, if_neg (by simp [hb])]
  exact ⟨_, rfl, rfl⟩

/-- The list whose items were read behind the parenthesis at `st`. -/
def closed (st : Nat) (r : Reading) : Reading :=
  match Reading.inside st (st + 1) (utf8 "of") r with
  | .ok (.list _ _ xs) j => .ok (.list st (j + 1) xs) (j + 1)
  | r => r

theorem closed_unfinished {r : Reading} (st : Nat) (h : r.isUnfinished = false) :
    (closed st r).isUnfinished = false := by
  cases r with
  | ok x j => cases x <;> rfl
  | fail why j => exact h

theorem form_paren (h : Ahead src i (40 :: t)) : form src i =
    Reading.firstOf i formExpected none [(utf8 "parse.List", closed i (items src (i + 1) (i + 1) []))] := by
  have hlist : list src i = closed i (items src (i + 1) (i + 1) []) := by
    rw [list, dif_pos h.lt, h.get, if_pos (by decide)]
    rfl
  rw [form_eq h.lt, hlist, firstOf_cons_passes]
  simp only [List.forall_mem_cons]
  exact ⟨str_passes h (by decide), num_passes h rfl rfl (by decide), var_passes h rfl,
    atom_passes h (by decide) rfl, List.forall_mem_nil _⟩

theorem form_quote (h : Ahead src i (34 :: t)) : form src i =
    Reading.firstOf i formExpected none [(utf8 "parse.Str", Token.strBody src i (i + 1) [])] := by
  have hstr : Token.str src i = Token.strBody src i (i + 1) [] := by
    rw [Token.str, if_neg (Nat.not_lt.mpr (Nat.le_of_lt h.lt)), if_pos (by simp [h.getElem?])]
  rw [form_eq h.lt, firstOf_pass (list_passes h (by decide)), hstr, firstOf_cons_passes]
  simp only [List.forall_mem_cons]
  exact ⟨num_passes h rfl rfl (by decide), var_passes h rfl, atom_passes h (by decide) rfl, List.forall_mem_nil _⟩

theorem form_token {b : UInt8} (h : Ahead src i (b :: t)) (hparen : b ≠ 40) (hquote : b ≠ 34) : form src i =
    Reading.firstOf i formExpected none [(utf8 "parse.Num", Token.num src i), (utf8 "parse.Var", Token.var src i),
      (utf8 "parse.Atom", Token.atom src i)] := by
  rw [form_eq h.lt, firstOf_pass (list_passes h hparen), firstOf_pass (str_passes h hquote)]

theorem items_ok {st : Nat} {acc : List Form} {x : Form} (hi : i ≤ src.size) (h : items src st i acc = .ok x j) :
    ∃ xs, x = .list 0 0 xs := by
  have hrow := items_rowed st acc hi fun k _ => form_bounded
  rw [h] at hrow
  obtain ⟨fs, hx, -⟩ := hrow
  exact ⟨_, hx⟩

theorem isFatal_of_isUnfinished {why : Failure} (h : why.isUnfinished = true) : why.isFatal = false := by
  unfold Failure.isUnfinished at h
  unfold Failure.isFatal
  split at h
  · simp [*]
  · cases h

theorem ahead_of_lt (hi : i < src.size) : ∃ b t, Ahead src i (b :: t) :=
  ⟨_, _, List.drop_eq_getElem_cons (by simpa using hi)⟩

theorem form_le {x : Form} (hi : i < src.size) (h : form src i = .ok x j) : j ≤ src.size := by
  have hbounded := form_bounded (Nat.le_of_lt hi)
  rw [h] at hbounded
  exact hbounded.2.1

theorem firstOf_fail {st k : Nat} {name otherwise : Bytes} {why : Failure} (hwhy : why.isFatal = false) :
    Reading.firstOf st otherwise none [(name, .fail why k)] =
      if k = st then .fail (.plain otherwise) st else .fail (.during name why) k := by
  simp only [Reading.firstOf, hwhy, Option.isSome_none, Bool.or_false, decide_eq_true_eq, Bool.false_eq_true, if_false]

theorem skip_close (h : Ahead src i (41 :: t)) : SpaceSet.all.skip src i = i := by
  rw [SpaceSet.skip, dif_pos h.lt, h.get, if_neg (by decide), if_neg (by decide)]

theorem items_read (st : Nat) {k : Nat} {b : UInt8} {x : Form} (acc : List Form)
    (hskip : SpaceSet.all.skip src i = j) (h : Ahead src j (b :: t)) (hb : b ≠ 41) (hform : form src j = .ok x k) :
    items src st i acc = if j < k then items src st k (x :: acc) else .fail (unexpectedByte b) j := by
  rw [items]
  simp only [hskip, h.lt, dif_pos, h.get, beq_iff_eq, hb, if_false, hform]

theorem items_fail (st : Nat) {k : Nat} {b : UInt8} {why : Failure} (acc : List Form)
    (hskip : SpaceSet.all.skip src i = j) (h : Ahead src j (b :: t)) (hb : b ≠ 41) (hform : form src j = .fail why k) :
    items src st i acc = .fail (itemFailure acc.length why) k := by
  rw [items]
  simp only [hskip, h.lt, dif_pos, h.get, beq_iff_eq, hb, if_false, hform]

theorem closed_fail {st k : Nat} {why : Failure} :
    closed st (.fail why k) = .fail (.during (utf8 "of") why) (if k = st + 1 then st else k) := rfl

/-- A list fares as its items do, but where the text ends behind the open parenthesis the failure is forgotten. -/
theorem prospect_paren (ha : Ahead src i (40 :: t))
    (h : Prospect (fun r => r.head? = some 41) (items · (i + 1) (i + 1) []) src (i + 1)) :
    Prospect (fun _ => True) (form · i) src i := by
  have hext : ∀ r, form (extend src r) i = Reading.firstOf i formExpected none
      [(utf8 "parse.List", closed i (items (extend src r) (i + 1) (i + 1) []))] :=
    fun r => form_paren (ha.extend (Nat.le_of_lt ha.lt))
  have hown := form_paren ha
  rcases h with @⟨why, k, hread, hwhy, hk, s, hmore⟩ | ⟨hread, hmore⟩ | @⟨why, k, hread, hwhy, hlast⟩
  · have hfatal : (Failure.during (utf8 "of") why).isFatal = false := @isFatal_of_isUnfinished why hwhy
    rw [hread, closed_fail, firstOf_fail hfatal] at hown
    rcases hk with hk | ⟨rfl, hend⟩
    · rw [if_neg (show ¬ k = i + 1 by omega), if_neg (show ¬ k = i by omega)] at hown
      refine .unfinished hown hwhy (Or.inl (by omega)) (s ++ [41]) fun r _ => ?_
      obtain ⟨x, hx⟩ := hmore (41 :: r) rfl
      obtain ⟨xs, rfl⟩ := items_ok (lt_extend ha.lt) hx
      rw [List.append_assoc, hext, List.singleton_append, hx, List.length_append, ← Nat.add_assoc]
      exact ⟨_, rfl⟩
    · -- The failure stands where the list begins, so the alternatives are tried and it is forgotten.
      rw [if_pos rfl, if_pos rfl] at hown
      refine .bare hown rfl ?_
      rw [Array.back?_eq_getElem?, ← hend, Nat.add_sub_cancel, ha.getElem?]
      rfl
  · refine .same ?_ fun r => ?_
    · rw [hown]
      exact firstOf_unfinished nofun (List.forall_mem_singleton.mpr (closed_unfinished i hread))
    · rw [hext, hmore, hown]
  · rw [hread, closed_fail] at hown
    have hnot : (form src i).isUnfinished = false := by
      rw [hown]
      exact firstOf_unfinished nofun (List.forall_mem_singleton.mpr hwhy)
    cases hform : form src i with
    | ok x j =>
      obtain ⟨p, hp, hok⟩ := mem_of_firstOf_ok (hown.symm.trans hform)
      obtain rfl := List.mem_singleton.mp hp
      cases hok
    | fail why' j =>
      rw [hform] at hnot
      exact .bare hform hnot hlast

theorem prospect_quote (ha : Ahead src i (34 :: t)) : Prospect (fun _ => True) (form · i) src i := by
  have hext : ∀ r, form (extend src r) i = Reading.firstOf i formExpected none
      [(utf8 "parse.Str", Token.strBody (extend src r) i (i + 1) [])] :=
    fun r => form_quote (ha.extend (Nat.le_of_lt ha.lt))
  have hown := form_quote ha
  rcases Token.strBody_extend i [] (Nat.succ_le_of_lt ha.lt) with
    ⟨k, hread, hk, hmore⟩ | ⟨hread, hmore⟩
  · rw [hread, firstOf_fail rfl, if_neg (by omega)] at hown
    refine .unfinished hown rfl (Or.inl hk) [34] fun r _ => ?_
    obtain ⟨x, hx⟩ := hmore r
    rw [List.singleton_append, hext, hx]
    exact ⟨x, rfl⟩
  · refine .same ?_ fun r => ?_
    · rw [hown]
      exact firstOf_unfinished nofun (List.forall_mem_singleton.mpr hread)
    · rw [hext, hmore, hown]

theorem prospect_token {b : UInt8} (ha : Ahead src i (b :: t)) (hparen : b ≠ 40) (hquote : b ≠ 34) :
    Prospect (fun _ => True) (form · i) src i := by
  have hown := form_token ha hparen hquote
  refine .same ?_ fun r => ?_
  · rw [hown]
    refine firstOf_unfinished nofun ?_
    simp only [List.forall_mem_cons]
    exact ⟨Token.num_unfinished src i, Token.var_unfinished src i, Token.atom_unfinished src i, nofun⟩
  · rw [hown, form_token (ha.extend (Nat.le_of_lt ha.lt)) hparen hquote, Token.num_extend (Nat.le_of_lt ha.lt),
      Token.var_extend ha.lt, Token.atom_extend ha.lt]

theorem skip_end {r : Bytes} (hi : i ≤ src.size) (hend : SpaceSet.all.skip src i = src.size) :
    SpaceSet.all.skip (extend src r) i = SpaceSet.all.skip (extend src r) (src.size + 1) := by
  rw [skip_extend hi, hend, SpaceSet.skip, dif_pos size_lt_extend, ahead_extend.get, if_pos (by decide)]

theorem itemFailure_of_isUnfinished {n : Nat} {why : Failure} (h : why.isUnfinished = true) :
    itemFailure n why = why := by
  rw [itemFailure, h, Bool.true_or, if_pos rfl]

theorem itemFailure_unfinished {n : Nat} {why : Failure} (h : why.isUnfinished = false) :
    (itemFailure n why).isUnfinished = false := by
  rw [itemFailure]
  split <;> exact h

-- The recursion is that of the readers: a list asks for its items behind the parenthesis, and these for a form where
-- the next of them begins.
mutual

theorem form_prospect {src : Array UInt8} {i : Nat} (hi : i < src.size) :
    Prospect (fun _ => True) (form · i) src i := by
  obtain ⟨b, t, ha⟩ := ahead_of_lt hi
  by_cases hparen : b = 40
  · subst hparen
    exact prospect_paren ha (items_prospect (i + 1) [] (Nat.succ_le_of_lt hi))
  by_cases hquote : b = 34
  · subst hquote
    exact prospect_quote ha
  · exact prospect_token ha hparen hquote
termination_by 3 * (src.size - i) + 1

theorem items_prospect {src : Array UInt8} {i : Nat} (st : Nat) (acc : List Form) (hi : i ≤ src.size) :
    Prospect (fun r => r.head? = some 41) (items · st i acc) src i := by
  have hle := SpaceSet.le_skip SpaceSet.all src i
  by_cases hlt : SpaceSet.all.skip src i < src.size
  · generalize hj : SpaceSet.all.skip src i = j at hle hlt
    have hskip : ∀ r, SpaceSet.all.skip (extend src r) i = j := fun r => hj ▸ skip_extend_of_lt hi (hj ▸ hlt)
    obtain ⟨b, t, ha⟩ := ahead_of_lt hlt
    have hext : ∀ r, Ahead (extend src r) j (b :: (t ++ 10 :: r)) := fun r => ha.extend (Nat.le_of_lt hlt)
    by_cases hclose : b = 41
    · subst hclose
      have hown : items src st i acc = .ok (.list 0 0 acc.reverse) j := items_close hj ha
      exact .same (by simp only [hown, Reading.isUnfinished]) fun r => (items_close (hskip r) (hext r)).trans hown.symm
    rcases form_prospect hlt with
      @⟨why, k, hread, hwhy, hk, s, hform⟩ | ⟨hread, hform⟩ | @⟨why, k, hread, hwhy, hlast⟩
    · have hown := items_fail st acc hj ha hclose hread
      refine .unfinished hown (by rwa [itemFailure_of_isUnfinished hwhy]) (by omega) s fun r hr => ?_
      obtain ⟨x, hx⟩ := hform r trivial
      obtain ⟨t, rfl⟩ : ∃ t, r = 41 :: t := List.head?_eq_some_iff.mp hr
      have hrest : Ahead (extend src (s ++ 41 :: t)) (src.size + 1 + s.length) (41 :: t) := ahead_extend.tail.append
      have hmore := items_read st acc (hskip _) (hext _) hclose hx
      rw [if_pos (by omega), items_close (skip_close hrest) hrest] at hmore
      exact ⟨_, hmore⟩
    · cases hx : form src j with
      | ok x k =>
        have hown := items_read st acc hj ha hclose hx
        have hmore := fun r => items_read st acc (hskip r) (hext r) hclose ((hform r).trans hx)
        by_cases hjk : j < k
        · simp only [if_pos hjk] at hown hmore
          exact (items_prospect st (x :: acc) (form_le hlt hx)).earlier (by omega) hown hmore
        · simp only [if_neg hjk] at hown hmore
          exact .same (hown ▸ rfl) fun r => (hmore r).trans hown.symm
      | fail why k =>
        have hown := items_fail st acc hj ha hclose hx
        have hmore := fun r => items_fail st acc (hskip r) (hext r) hclose ((hform r).trans hx)
        have hwhy : why.isUnfinished = false := by rwa [hx] at hread
        exact .same (hown ▸ itemFailure_unfinished hwhy) fun r => (hmore r).trans hown.symm
    · exact .bare (items_fail st acc hj ha hclose hread) (itemFailure_unfinished hwhy) hlast
  · have hend : SpaceSet.all.skip src i = src.size := by
      have := SpaceSet.skip_le SpaceSet.all src hi
      omega
    have hown : items src st i acc = .fail (.unfinished ((st : Int) - 1)) src.size := by
      rw [items]
      simp only [hend, Nat.lt_irrefl, dif_neg, not_false_eq_true]
    refine .unfinished hown rfl (by omega) [] fun r hr => ?_
    obtain ⟨t, rfl⟩ : ∃ t, r = 41 :: t := List.head?_eq_some_iff.mp hr
    have hclose : Ahead (extend src (41 :: t)) (src.size + 1) (41 :: t) := ahead_extend.tail
    exact ⟨_, items_close ((skip_end hi hend).trans (skip_close hclose)) hclose⟩
termination_by 3 * (src.size - i) + 2

end

end Listing

namespace Source

open Listing

variable {s : Source} {name t : Bytes} {why : Failure}

/-- What more text does to the reading of the forms from `i` on. -/
inductive Outlook (s : Source) (i : Nat) (acc : List Form) : Prop where
  | read (h : (s.readFrom .form i acc).failure? = none)
  | unfinished {why : Failure} (h : (s.readFrom .form i acc).failure? = some why) (hwhy : why.isUnfinished = true)
      (r : Bytes) (hr : ∀ s' : Source, s'.text = extend s.text r → (s'.readFrom .form i acc).failure? = none)
  | failed {why : Failure} (h : (s.readFrom .form i acc).failure? = some why) (hwhy : why.isUnfinished = false)
      (hmore : ∀ (s' : Source) (r : Bytes), s'.text = extend s.text r → (s'.readFrom .form i acc).failure? ≠ none)
  | bare {why : Failure} (h : (s.readFrom .form i acc).failure? = some why) (hwhy : why.isUnfinished = false)
      (hlast : s.text.back? = some 40)

variable {i j : Nat} {acc : List Form}

theorem Outlook.earlier {k : Nat} {acc' : List Form} (h : Outlook s k acc')
    (hown : s.readFrom .form i acc = s.readFrom .form k acc')
    (hext : ∀ (s' : Source) (r : Bytes), s'.text = extend s.text r →
      s'.readFrom .form i acc = s'.readFrom .form k acc') : Outlook s i acc := by
  cases h with
  | read h => exact .read (hown ▸ h)
  | unfinished h hwhy r hr => exact .unfinished (hown ▸ h) hwhy r fun s' hs' => hext s' r hs' ▸ hr s' hs'
  | failed h hwhy hmore => exact .failed (hown ▸ h) hwhy fun s' r hs' => hext s' r hs' ▸ hmore s' r hs'
  | bare h hwhy hlast => exact .bare (hown ▸ h) hwhy hlast

theorem readFrom_end (h : s.text.size ≤ SpaceSet.all.skip s.text i) :
    (s.readFrom .form i acc).failure? = none := by
  rw [readFrom]
  simp [Nat.not_lt.mpr h]

theorem readFrom_ok {x : Form} {k : Nat} (hskip : SpaceSet.all.skip s.text i = j) (hj : j < s.text.size)
    (hform : form s.text j = .ok x k) (hk : j < k) :
    s.readFrom .form i acc = s.readFrom .form k (x :: acc) := by
  replace hform : Grammar.read s.text .form j = .ok x k := hform
  rw [readFrom]
  simp only [hskip, hj, dif_pos, hform, hk, if_true]

theorem readFrom_stuck {x : Form} {k : Nat} (hskip : SpaceSet.all.skip s.text i = j) (hj : j < s.text.size)
    (hform : form s.text j = .ok x k) (hk : ¬ j < k) :
    (s.readFrom .form i acc).failure? = some (.partialRead j) := by
  replace hform : Grammar.read s.text .form j = .ok x k := hform
  rw [readFrom]
  simp only [hskip, hj, dif_pos, hform, hk, if_false]

theorem readFrom_fail {k : Nat} (acc : List Form) (hskip : SpaceSet.all.skip s.text i = j) (hj : j < s.text.size)
    (hform : form s.text j = .fail why k) :
    ∃ why', (s.readFrom .form i acc).failure? = some why' ∧ why'.isUnfinished = why.isUnfinished := by
  replace hform : Grammar.read s.text .form j = .fail why k := hform
  rw [readFrom]
  simp only [hskip, hj, dif_pos, hform]
  split
  · exact ⟨why, rfl, rfl⟩
  · exact ⟨_, rfl, rfl⟩

theorem readFrom_outlook {i : Nat} (acc : List Form) (hi : i ≤ s.text.size) : Outlook s i acc := by
  have hle := SpaceSet.le_skip SpaceSet.all s.text i
  by_cases hlt : SpaceSet.all.skip s.text i < s.text.size
  · generalize hj : SpaceSet.all.skip s.text i = j at hle hlt
    have hskip : ∀ (s' : Source) (r : Bytes), s'.text = extend s.text r → SpaceSet.all.skip s'.text i = j :=
      fun s' r hs' => by rw [hs', skip_extend_of_lt hi (hj ▸ hlt), hj]
    have hlt' : ∀ (s' : Source) (r : Bytes), s'.text = extend s.text r → j < s'.text.size :=
      fun s' r hs' => hs' ▸ lt_extend hlt
    rcases form_prospect hlt with
      @⟨why, k, hread, hwhy, hk, t, hform⟩ | ⟨hread, hform⟩ | @⟨why, k, hread, hwhy, hlast⟩
    · obtain ⟨why', hfail, hsame⟩ := readFrom_fail acc hj hlt hread
      refine .unfinished hfail (hsame.trans hwhy) t fun s' hs' => ?_
      obtain ⟨x, hx⟩ := hform [] trivial
      rw [List.append_nil, ← hs'] at hx
      rw [readFrom_ok (hskip s' t hs') (hlt' s' t hs') hx (by omega)]
      refine readFrom_end (Nat.le_trans ?_ (SpaceSet.le_skip _ _ _))
      rw [hs', extend]
      simp only [Array.size_append, List.size_toArray, List.length_cons]
      omega
    · cases hx : form s.text j with
      | ok x k =>
        simp only [hx] at hform
        by_cases hjk : j < k
        · refine (readFrom_outlook (x :: acc) (form_le hlt hx)).earlier (readFrom_ok hj hlt hx hjk) fun s' r hs' => ?_
          exact readFrom_ok (hskip s' r hs') (hlt' s' r hs') (hs' ▸ hform r) hjk
        · refine .failed (readFrom_stuck hj hlt hx hjk) rfl fun s' r hs' => ?_
          simp [readFrom_stuck (hskip s' r hs') (hlt' s' r hs') (hs' ▸ hform r) hjk]
      | fail why k =>
        obtain ⟨why', hfail, hsame⟩ := readFrom_fail acc hj hlt hx
        simp only [hx] at hread hform
        refine .failed hfail (hsame.trans hread) fun s' r hs' => ?_
        obtain ⟨why'', hfail', -⟩ := readFrom_fail acc (hskip s' r hs') (hlt' s' r hs') (hs' ▸ hform r)
        simp [hfail']
    · obtain ⟨why', hfail, hsame⟩ := readFrom_fail acc hj hlt hread
      exact .bare hfail (hsame.trans hwhy) hlast
  · exact .read (readFrom_end (Nat.le_of_not_lt hlt))
termination_by s.text.size - i

theorem forms_eq_error : s.forms = .error why ↔ (s.readFrom .form 0 []).failure? = some why := by
  unfold forms read
  cases hf : (s.readFrom .form 0 []).failure? <;> simp [hf]

theorem exists_forms_eq_ok : (∃ fs, s.forms = .ok fs) ↔ (s.readFrom .form 0 []).failure? = none := by
  unfold forms read
  cases hf : (s.readFrom .form 0 []).failure? <;> simp [hf]

theorem text_ofFile_line (name t r : Bytes) : (ofFile name (t ++ 10 :: r)).text = extend (ofFile name t).text r := by
  simp [ofFile, addFile, extend]

theorem completed_of_unfinished (h : (ofFile name t).forms = .error why) (hwhy : why.isUnfinished = true) :
    ∃ r fs, (ofFile name (t ++ 10 :: r)).forms = .ok fs := by
  rw [forms_eq_error] at h
  cases readFrom_outlook (s := ofFile name t) [] (Nat.zero_le _) with
  | read hnone => simp [hnone] at h
  | unfinished _ _ r hr => exact ⟨r, exists_forms_eq_ok.mpr (hr _ (text_ofFile_line name t r))⟩
  | failed h' hwhy' | bare h' hwhy' =>
    obtain rfl := Option.some.inj (h.symm.trans h')
    rw [hwhy] at hwhy'
    cases hwhy'

/-- Of the texts that cannot be read, those that end inside of a form are the ones that more lines complete, unless
the text ends with an open parenthesis. -/
theorem unfinished_iff (h : (ofFile name t).forms = .error why) (hlast : t.getLast? ≠ some 40) :
    why.isUnfinished = true ↔ ∃ r fs, (ofFile name (t ++ 10 :: r)).forms = .ok fs := by
  refine ⟨completed_of_unfinished h, ?_⟩
  rintro ⟨r, hr⟩
  rw [forms_eq_error] at h
  rw [exists_forms_eq_ok] at hr
  cases readFrom_outlook (s := ofFile name t) [] (Nat.zero_le _) with
  | read hnone => simp [hnone] at h
  | unfinished h' hwhy => exact Option.some.inj (h.symm.trans h') ▸ hwhy
  | failed _ _ hmore => exact absurd hr (hmore _ r (text_ofFile_line name t r))
  | bare _ _ hlast' => exact absurd (by simpa [ofFile, addFile] using hlast') hlast

/-- A list that still lacks its end. -/
theorem unfinished_iff_item : ∃ why, (ofFile [] (utf8 "(a")).forms = .error why ∧ (utf8 "(a").getLast? ≠ some 40 ∧
    why.isUnfinished = true ∧ ∃ r fs, (ofFile [] (utf8 "(a" ++ 10 :: r)).forms = .ok fs := by
  have hsome : (((ofFile [] (utf8 "(a")).readFrom .form 0 []).failure?.any Failure.isUnfinished) = true := by
    decide +kernel
  obtain ⟨why, hfails, hwhy⟩ := (Option.any_eq_true _ _).mp hsome
  have herr := forms_eq_error.mpr hfails
  have hlast : (utf8 "(a").getLast? ≠ some 40 := by decide
  exact ⟨why, herr, hlast, hwhy, (unfinished_iff herr hlast).mp hwhy⟩

/-- The failure of a list that has only been opened does not tell that more lines complete it. -/
theorem not_unfinished_iff_paren : ∃ why, (ofFile [] (utf8 "(")).forms = .error why ∧ why.isUnfinished = false ∧
    ∃ r fs, (ofFile [] (utf8 "(" ++ 10 :: r)).forms = .ok fs := by
  have hfails : ((ofFile [] (utf8 "(")).readFrom .form 0 []).failure? =
      some (.during (utf8 ":1:1") (.plain formExpected)) := by
    decide +kernel
  have hnone : ((ofFile [] (utf8 "(\n)")).readFrom .form 0 []).failure? = none := by decide +kernel
  exact ⟨_, forms_eq_error.mpr hfails, rfl, utf8 ")", exists_forms_eq_ok.mpr hnone⟩

end Source

end OpTree
