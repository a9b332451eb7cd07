import OpTree.Listing.Grammar
import Mathlib.Tactic.Common

/-!
# Spans

A reader that is started in a text stays in it: a form that it reads spans the text from where the reader was started
to where it stopped, and a failure is noticed in between. In a list the items follow each other between the
parentheses, with nothing but blanks and comments around them. So the text of every form can be cut out of the
source.
-/

namespace OpTree

set_option autoImplicit false

namespace Form

/-- A form itself, and what it consists of at any depth. -/
inductive Under : Form → Form → Prop where
  | refl (f : Form) : Under f f
  | item {g f : Form} {p s : Nat} {fs : List Form} (hf : f ∈ fs) (h : Under g f) : Under g (.list p s fs)

def Outside (fs : List Form) (k : Nat) : Prop := ∀ f ∈ fs, ∀ a b, f.span? = some (a, b) → k < a ∨ b ≤ k

/-- A blank, or a byte of a comment that begins from `i` on and lies outside of some forms as a whole. -/
def Filler (src : Array UInt8) (fs : List Form) (i k : Nat) : Prop :=
  (∃ b ∈ [32, 9, 13, 10], src[k]? = some b) ∨
  ∃ q, i ≤ q ∧ q ≤ k ∧ src[q]? = some 59 ∧ ∀ m, q ≤ m → m ≤ k → src[m]? ≠ some 10 ∧ Outside fs m

/-- A list has its items between its parentheses. They are not empty and follow each other, and a byte outside of
them is a blank or belongs to a comment. -/
structure Enclosed (src : Array UInt8) (p s : Nat) (fs : List Form) : Prop where
  opens : src[p]? = some 40
  closes : src[s - 1]? = some 41
  inside : ∀ f ∈ fs, ∃ a b, f.span? = some (a, b) ∧ p < a ∧ a < b ∧ b < s
  apart : fs.Pairwise fun f g => ∀ a b c d, f.span? = some (a, b) → g.span? = some (c, d) → b ≤ c
  filler : ∀ k, p < k → k + 1 < s → Outside fs k → Filler src fs (p + 1) k

/-- A form that spans bytes of the text, with its items where they belong if it is a list. -/
def Placed (src : Array UInt8) (f : Form) : Prop :=
  (∃ a b, f.span? = some (a, b) ∧ a < b ∧ b ≤ src.size) ∧ ∀ p s fs, f = .list p s fs → Enclosed src p s fs

end Form

namespace Reading

variable {src : Array UInt8} {st i j : Nat}

/-- A reader started at `st` moves forward in the text, and may fail without having moved. -/
def InText (src : Array UInt8) (st : Nat) : Reading → Prop
  | .ok _ i => st < i ∧ i ≤ src.size
  | .fail why i => st ≤ i ∧ i ≤ src.size ∧ why.isFatal = false

/-- A reader started at `st` stays in the text, and its form spans what it has read. -/
def Bounded (src : Array UInt8) (st : Nat) : Reading → Prop
  | .ok x i => st < i ∧ i ≤ src.size ∧ x.span? = some (st, i) ∧ ∀ g, Form.Under g x → g.Placed src
  | .fail why i => st ≤ i ∧ i ≤ src.size ∧ why.isFatal = false

theorem bounded_leaf {x : Form} (hst : st < i) (hi : i ≤ src.size) (hspan : x.span? = some (st, i))
    (hleaf : ∀ p s fs, x ≠ .list p s fs) : Bounded src st (.ok x i) := by
  refine ⟨hst, hi, hspan, fun g hg => ?_⟩
  cases hg with
  | refl => exact ⟨⟨st, i, hspan, hst, hi⟩, fun p s fs e => absurd e (hleaf p s fs)⟩
  | item => exact absurd rfl (hleaf _ _ _)

theorem bounded_expected (what : String) (hst : st ≤ i) (hi : i ≤ src.size) : Bounded src st (expected what i) :=
  ⟨hst, hi, rfl⟩

theorem bounded_firstOf {otherwise : Bytes} {kept : Option (Failure × Nat)} {rs : List (Bytes × Reading)}
    (hst : st ≤ src.size) (hkept : ∀ p ∈ kept, Bounded src st (.fail p.1 p.2)) (hrs : ∀ p ∈ rs, Bounded src st p.2) :
    Bounded src st (firstOf st otherwise kept rs) := by
  induction rs generalizing kept with
  | nil =>
    cases kept with
    | none => exact ⟨Nat.le_refl st, hst, rfl⟩
    | some p => exact hkept p rfl
  | cons p rs ih =>
    obtain ⟨name, r⟩ := p
    have hrest : ∀ p ∈ rs, Bounded src st p.2 := fun p hp => hrs p (.tail _ hp)
    have hr : Bounded src st r := hrs _ (.head _)
    cases r with
    | ok x j => exact hr
    | fail why j =>
      simp only [firstOf]
      split
      · exact hr
      split
      · exact ih hkept hrest
      · refine ih ?_ hrest
        rintro _ ⟨⟩
        exact hr

end Reading

theorem length_slice (src : Array UInt8) (i j : Nat) : (slice src i j).length = min (j - i) (src.size - i) := by
  simp [slice]

namespace Token

open Reading

variable {src : Array UInt8} {i j : Nat}

theorem lt_of_at {f : Option UInt8 → Bool} (hf : f none = false) (h : f src[i]? = true) : i < src.size := by
  by_contra hge
  rw [Array.getElem?_eq_none (Nat.le_of_not_lt hge), hf] at h
  cases h

/-! ## Identifiers -/

theorem width_ite_le {c : Prop} [Decidable c] {d : Decoded} {n : Nat} (hd : d.width ≤ n + 1) :
    (if c then d else .bad).width ≤ n + 1 := by
  split
  · exact hd
  · exact Nat.le_add_left 1 n

theorem decodeHead_width_le (b : UInt8) (s : Bytes) : (Bytes.decodeHead b s).width ≤ s.length + 1 := by
  unfold Bytes.decodeHead
  split
  · exact Nat.le_add_left 1 _
  split
  · exact Nat.le_add_left 1 _
  split
  · split
    · exact width_ite_le (by simp)
    · exact Nat.le_add_left 1 _
  split
  · split
    · exact width_ite_le (by simp)
    · exact Nat.le_add_left 1 _
  split
  · split
    · exact width_ite_le (by simp)
    · exact Nat.le_add_left 1 _
  · exact Nat.le_add_left 1 _

theorem codePoint_le (b : UInt8) (hi : i < src.size) :
    i + max (Bytes.decodeHead b (slice src (i + 1) (i + 4))).width 1 ≤ src.size := by
  have hwidth := decodeHead_width_le b (slice src (i + 1) (i + 4))
  rw [length_slice] at hwidth
  omega

/-- The end of the identifier bytes, or the code point that is none, lies in the text. -/
theorem identEnd_bounds (hi : i ≤ src.size) (h : identEnd src i = .ok j ∨ identEnd src i = .error j) :
    i ≤ j ∧ j ≤ src.size := by
  fun_induction identEnd src i with
  | case1 i hlt hword ih =>
    have hrest := ih (by omega) h
    omega
  | case2 i hlt hword hhigh d hd =>
    obtain rfl : i = j := by simpa using h
    omega
  | case3 i hlt hword hhigh d hd ih =>
    have hpoint : i + max d.width 1 ≤ src.size := codePoint_le src[i] hlt
    have hrest := ih hpoint h
    omega
  | case4 i hlt hword hhigh =>
    obtain rfl : i = j := by simpa using h
    omega
  | case5 i hge =>
    obtain rfl : i = j := by simpa using h
    omega

theorem ident_inText (hi : i ≤ src.size) : InText src i (ident src i) := by
  rw [ident]
  split
  · split
    · cases hend : identEnd src (i + 1) with
      | ok j =>
        have hj := identEnd_bounds (by omega) (Or.inl hend)
        exact ⟨by omega, hj.2⟩
      | error j =>
        have hj := identEnd_bounds (by omega) (Or.inr hend)
        exact ⟨by omega, hj.2, rfl⟩
    · exact ⟨Nat.le_refl i, hi, rfl⟩
  · rw [if_pos (by omega)]
    exact ⟨Nat.le_refl i, hi, rfl⟩

theorem atom_bounded (hi : i ≤ src.size) : Bounded src i (atom src i) := by
  have hcolon : i ≤ (if src[i]? == some 58 then i + 1 else i) ∧
      (if src[i]? == some 58 then i + 1 else i) ≤ src.size := by
    split
    · rename_i hcolon
      exact ⟨Nat.le_succ i, lt_of_at (f := (· == some 58)) rfl hcolon⟩
    · exact ⟨Nat.le_refl i, hi⟩
  simp only [atom]
  generalize (if src[i]? == some 58 then i + 1 else i) = k at hcolon ⊢
  have hident := ident_inText hcolon.2
  cases hread : ident src k with
  | ok x j =>
    rw [hread] at hident
    exact bounded_leaf (by have := hident.1; omega) hident.2 rfl (by simp)
  | fail why j =>
    rw [hread] at hident
    simp only [hident.2.2]
    exact bounded_expected _ (Nat.le_refl i) hi

theorem var_bounded (hi : i ≤ src.size) : Bounded src i (var src i) := by
  rw [var, if_neg (Nat.not_lt.mpr hi)]
  cases hb : src[i]? with
  | none => exact bounded_expected _ (Nat.le_refl i) hi
  | some b =>
    have hlt : i < src.size := (Array.getElem?_eq_some_iff.mp hb).1
    simp only
    split
    · have hident := ident_inText (i := i + 1) hlt
      cases hread : ident src (i + 1) with
      | ok x j =>
        rw [hread] at hident
        exact bounded_leaf (by have := hident.1; omega) hident.2 rfl (by simp)
      | fail why j =>
        rw [hread] at hident
        exact ⟨by have := hident.1; omega, hident.2⟩
    · exact bounded_expected _ (Nat.le_refl i) hi

/-! ## Strings and numbers -/

theorem strBody_bounded {st : Nat} {acc : Bytes} (hst : st < i) (hi : i ≤ src.size) :
    Bounded src st (strBody src st i acc) := by
  fun_induction strBody src st i acc with
  | case1 i acc hlt hquote => exact bounded_leaf (by omega) hlt rfl (by simp)
  | case2 i acc hlt hquote hslash hlt' ih => exact ih (by omega) (by omega)
  | case3 i acc hlt hquote hslash hge => exact ⟨by omega, by omega, rfl⟩
  | case4 i acc hlt hquote hslash ih => exact ih (by omega) (by omega)
  | case5 i acc hge => exact ⟨by omega, hi, rfl⟩

theorem str_bounded (hi : i ≤ src.size) : Bounded src i (str src i) := by
  rw [str, if_neg (Nat.not_lt.mpr hi)]
  split
  · rename_i hquote
    exact strBody_bounded (Nat.lt_succ_self i) (lt_of_at (f := (· == some 34)) rfl hquote)
  · exact bounded_expected _ (Nat.le_refl i) hi

theorem decimalEnd_bounds {first : Nat} {dot exp : Bool} (hi : i ≤ src.size) :
    i ≤ (decimalEnd src first i dot exp).1 ∧ (decimalEnd src first i dot exp).1 ≤ src.size := by
  fun_induction decimalEnd src first i dot exp with
  | case1 i dot exp hlt b hb ih => exact (ih hlt).imp_left (by omega)
  | case2 i dot exp hlt b hb hdot ih => exact (ih hlt).imp_left (by omega)
  | case3 i dot exp hlt b hb hdot hexp ih =>
    have hnext : i ≤ (if isSign src[i + 1]? then i + 2 else i + 1) ∧
        (if isSign src[i + 1]? then i + 2 else i + 1) ≤ src.size := by
      split
      · exact ⟨by omega, lt_of_at rfl ‹_›⟩
      · exact ⟨by omega, hlt⟩
    exact (ih hnext.2).imp_left (Nat.le_trans hnext.1)
  | case4 => exact ⟨Nat.le_refl _, hi⟩
  | case5 => exact ⟨Nat.le_refl _, hi⟩

theorem signEnd_bounds (hi : i ≤ src.size) :
    i ≤ (if isSign src[i]? then i + 1 else i) ∧ (if isSign src[i]? then i + 1 else i) ≤ src.size := by
  split
  · exact ⟨Nat.le_succ i, lt_of_at rfl ‹_›⟩
  · exact ⟨Nat.le_refl i, hi⟩

theorem num_bounded (hi : i ≤ src.size) : Bounded src i (num src i) := by
  have hfirst := signEnd_bounds hi
  simp only [num]
  generalize (if isSign src[i]? then i + 1 else i) = k at hfirst ⊢
  have hend : k ≤ (decimalEnd src k k false false).1 ∧ (decimalEnd src k k false false).1 ≤ src.size :=
    decimalEnd_bounds hfirst.2
  split
  · rename_i hbase
    rw [Bool.and_eq_true] at hbase
    have hletter : k + 1 < src.size := lt_of_at rfl hbase.2
    split
    · exact bounded_expected _ (Nat.le_refl i) hi
    · have hle := le_scanWhile src Bytes.isWord (k + 2)
      exact bounded_leaf (by omega) (scanWhile_le src _ hletter) rfl (by simp)
  split
  · exact bounded_expected _ (Nat.le_refl i) hi
  · rename_i hdigits
    have hmoved : (decimalEnd src k k false false).1 ≠ k := fun e => hdigits (by simp [e])
    split
    · exact bounded_expected _ (Nat.le_refl i) hi
    split
    · exact bounded_leaf (by omega) hend.2 rfl (by simp)
    · exact bounded_leaf (by omega) hend.2 rfl (by simp)

end Token

namespace Listing

open Reading Form

variable {src : Array UInt8} {st i j k : Nat} {acc fs : List Form}

/-! ## Lists -/

theorem of_lt_scanWhile {p : UInt8 → Bool} (hi : i ≤ k) (hk : k < scanWhile src p i) :
    ∃ b, src[k]? = some b ∧ p b = true := by
  fun_induction scanWhile src p i with
  | case1 i hlt hp ih =>
    rcases Nat.eq_or_lt_of_le hi with rfl | hi
    · exact ⟨_, Array.getElem?_eq_getElem hlt, hp⟩
    · exact ih hi hk
  | case2 => omega
  | case3 => omega

/-- What is skipped is a blank or belongs to a comment that was skipped from its beginning on. -/
theorem of_lt_skip (hi : i ≤ k) (hk : k < SpaceSet.all.skip src i) :
    (∃ b ∈ [32, 9, 13, 10], src[k]? = some b) ∨
    ∃ q, i ≤ q ∧ q ≤ k ∧ src[q]? = some 59 ∧ ∀ m, q ≤ m → m ≤ k → src[m]? ≠ some 10 := by
  fun_induction SpaceSet.skip SpaceSet.all src i with
  | case1 i hlt hblank ih =>
    rcases Nat.eq_or_lt_of_le hi with rfl | hi
    · exact Or.inl ⟨src[i], by simpa [SpaceSet.contains, SpaceSet.all] using hblank, Array.getElem?_eq_getElem hlt⟩
    · refine (ih hi hk).imp_right ?_
      rintro ⟨q, hq, hcomment⟩
      exact ⟨q, by omega, hcomment⟩
  | case2 i hlt hblank hsemi ih =>
    have hsemi : src[i] = 59 := by simpa using hsemi
    have hbegin : src[i]? = some 59 := by rw [Array.getElem?_eq_getElem hlt, hsemi]
    rcases Nat.lt_or_ge k (scanWhile src (· != 10) (i + 1)) with hline | hline
    · refine Or.inr ⟨i, Nat.le_refl i, hi, hbegin, fun m him hmk e => ?_⟩
      rcases Nat.eq_or_lt_of_le him with rfl | him
      · rw [hbegin] at e
        cases e
      · obtain ⟨b, hb, hne⟩ := of_lt_scanWhile him (Nat.lt_of_le_of_lt hmk hline)
        rw [e] at hb
        cases hb
        cases hne
    · refine (ih hline hk).imp_right ?_
      have hle := le_scanWhile src (· != 10) (i + 1)
      rintro ⟨q, hq, hcomment⟩
      exact ⟨q, by omega, hcomment⟩
  | case3 => omega
  | case4 => omega

/-- Items from one place on up to another, each found behind what is skipped after the one before it. -/
inductive InRow (src : Array UInt8) : Nat → List Form → Nat → Prop where
  | nil {i j : Nat} (hskip : SpaceSet.all.skip src i = j) : InRow src i [] j
  | cons {i a b j : Nat} {f : Form} {fs : List Form} (hskip : SpaceSet.all.skip src i = a)
      (hspan : f.span? = some (a, b)) (hlt : a < b) (h : InRow src b fs j) : InRow src i (f :: fs) j

theorem InRow.le (h : InRow src i fs j) : i ≤ j := by
  induction h with
  | @nil i j hskip => exact hskip ▸ SpaceSet.le_skip _ src i
  | @cons i a b j f fs hskip hspan hlt h ih =>
    have := hskip ▸ SpaceSet.le_skip SpaceSet.all src i
    omega

theorem InRow.inside (h : InRow src i fs j) {f : Form} (hf : f ∈ fs) :
    ∃ a b, f.span? = some (a, b) ∧ SpaceSet.all.skip src i ≤ a ∧ a < b ∧ b ≤ j := by
  induction h with
  | nil => cases hf
  | @cons i a b j g fs hskip hspan hlt h ih =>
    rcases List.mem_cons.mp hf with rfl | hf
    · exact ⟨a, b, hspan, Nat.le_of_eq hskip, hlt, h.le⟩
    · obtain ⟨c, d, hf, hc, hd⟩ := ih hf
      have hskip' := SpaceSet.le_skip SpaceSet.all src b
      exact ⟨c, d, hf, by omega, hd⟩

theorem InRow.outside (h : InRow src i fs j) (hk : k < SpaceSet.all.skip src i) : Outside fs k := by
  intro f hf a b hspan
  obtain ⟨a', b', hspan', ha, -⟩ := h.inside hf
  cases hspan.symm.trans hspan'
  exact Or.inl (by omega)

theorem InRow.apart (h : InRow src i fs j) :
    fs.Pairwise fun f g => ∀ a b c d, f.span? = some (a, b) → g.span? = some (c, d) → b ≤ c := by
  induction h with
  | nil => exact .nil
  | @cons i a b j f fs hskip hspan hlt h ih =>
    refine .cons (fun g hg a' b' c d hf hspan' => ?_) ih
    obtain ⟨c', d', hg, hc, -⟩ := h.inside hg
    cases hspan.symm.trans hf
    cases hg.symm.trans hspan'
    exact Nat.le_trans (SpaceSet.le_skip _ src b) hc

theorem InRow.filler_of_lt_skip (h : InRow src i fs j) (hi : i ≤ k) (hk : k < SpaceSet.all.skip src i) :
    Filler src fs i k := by
  refine (of_lt_skip hi hk).imp_right ?_
  rintro ⟨q, hiq, hqk, hsemi, hline⟩
  exact ⟨q, hiq, hqk, hsemi, fun m hqm hmk => ⟨hline m hqm hmk, h.outside (Nat.lt_of_le_of_lt hmk hk)⟩⟩

theorem InRow.filler (h : InRow src i fs j) (hi : i ≤ k) (hk : k < j) (hout : Outside fs k) : Filler src fs i k := by
  induction h with
  | nil hskip => exact (InRow.nil hskip).filler_of_lt_skip hi (hskip ▸ hk)
  | @cons i a b j f fs hskip hspan hlt h ih =>
    have hrow := InRow.cons hskip hspan hlt h
    rcases Nat.lt_or_ge k a with hgap | hgap
    · exact hrow.filler_of_lt_skip hi (hskip ▸ hgap)
    · have hbehind : b ≤ k := (hout f (.head _) a b hspan).resolve_left (by omega)
      have hstart := SpaceSet.le_skip SpaceSet.all src i
      refine (ih hbehind hk fun g hg => hout g (.tail _ hg)).imp_right ?_
      rintro ⟨q, hbq, hqk, hsemi, hline⟩
      refine ⟨q, by omega, hqk, hsemi, fun m hqm hmk => ⟨(hline m hqm hmk).1, ?_⟩⟩
      -- The comment begins behind the first item, so none of it belongs to that one.
      rintro g (_ | ⟨_, hg⟩) c d hg'
      · cases hspan.symm.trans hg'
        exact Or.inr (by omega)
      · exact (hline m hqm hmk).2 g hg c d hg'

theorem InRow.enclosed {p : Nat} (hopen : src[p]? = some 40) (h : InRow src (p + 1) fs j) (hclose : src[j]? = some 41) :
    Enclosed src p (j + 1) fs where
  opens := hopen
  closes := hclose
  inside f hf := by
    obtain ⟨a, b, hspan, ha, hab, hb⟩ := h.inside hf
    have hskip := SpaceSet.le_skip SpaceSet.all src (p + 1)
    exact ⟨a, b, hspan, by omega, hab, by omega⟩
  apart := h.apart
  filler k hpk hk hout := h.filler hpk (by omega) hout

/-- What reading items from `i` on gives: those that were read before and then a row of placed forms, up to a closing
parenthesis, or a failure further on in the text. -/
def Rowed (src : Array UInt8) (i : Nat) (acc : List Form) : Reading → Prop
  | .ok x j => ∃ fs, x = .list 0 0 (acc.reverse ++ fs) ∧ InRow src i fs j ∧ src[j]? = some 41 ∧
      ∀ f ∈ fs, ∀ g, Under g f → g.Placed src
  | .fail why j => i ≤ j ∧ j ≤ src.size ∧ why.isFatal = false

theorem itemFailure_isFatal {why : Failure} (n : Nat) (h : why.isFatal = false) :
    (itemFailure n why).isFatal = false := by
  unfold itemFailure
  split
  · exact h
  · exact h

theorem items_rowed {i : Nat} (st : Nat) (acc : List Form) (hi : i ≤ src.size)
    (hform : ∀ k, i ≤ k → k ≤ src.size → Bounded src k (form src k)) : Rowed src i acc (items src st i acc) := by
  have hskip := SpaceSet.le_skip SpaceSet.all src i
  have hle := SpaceSet.skip_le SpaceSet.all src hi
  rw [items]
  generalize hj : SpaceSet.all.skip src i = j at hskip hle ⊢
  split
  · rename_i hlt
    split
    · rename_i hclose
      refine ⟨[], by rw [List.append_nil], .nil hj, ?_, nofun⟩
      rw [Array.getElem?_eq_getElem hlt, eq_of_beq hclose]
    · have hitem := hform j hskip hle
      cases hread : form src j with
      | ok x k =>
        rw [hread] at hitem
        obtain ⟨hjk, hk, hspan, hplaced⟩ := hitem
        simp only [hjk, if_true]
        have hrest := items_rowed st (x :: acc) hk fun m hm => hform m (by omega)
        cases hitems : items src st k (x :: acc) with
        | ok y m =>
          rw [hitems] at hrest
          obtain ⟨fs, rfl, hrow, hclose, hfs⟩ := hrest
          refine ⟨x :: fs, by simp, .cons hj hspan hjk hrow, hclose, ?_⟩
          exact List.forall_mem_cons.mpr ⟨hplaced, hfs⟩
        | fail why m =>
          rw [hitems] at hrest
          exact ⟨by have := hrest.1; omega, hrest.2⟩
      | fail why k =>
        rw [hread] at hitem
        exact ⟨by have := hitem.1; omega, hitem.2.1, itemFailure_isFatal _ hitem.2.2⟩
  · exact ⟨hskip, hle, rfl⟩
termination_by src.size - i
decreasing_by omega

theorem list_bounded (hst : st ≤ src.size) (hform : ∀ k, st < k → k ≤ src.size → Bounded src k (form src k)) :
    Bounded src st (list src st) := by
  rw [list]
  split
  · rename_i hlt
    split
    · rename_i hopen
      have hopen : src[st]? = some 40 := by rw [Array.getElem?_eq_getElem hlt, eq_of_beq hopen]
      have hitems := items_rowed (st + 1) [] hlt hform
      cases hread : items src (st + 1) (st + 1) [] with
      | ok x j =>
        rw [hread] at hitems
        obtain ⟨fs, rfl, hrow, hclose, hfs⟩ := hitems
        have hj : j < src.size := (Array.getElem?_eq_some_iff.mp hclose).1
        have hle := hrow.le
        refine ⟨by omega, hj, rfl, fun g hg => ?_⟩
        cases hg with
        | refl =>
          refine ⟨⟨st, j + 1, rfl, by omega, hj⟩, ?_⟩
          rintro _ _ _ ⟨⟩
          exact hrow.enclosed hopen hclose
        | item hf hg => exact hfs _ hf g hg
      | fail why j =>
        rw [hread] at hitems
        refine ⟨?_, ?_, hitems.2.2⟩
        · have := hitems.1
          split <;> omega
        · have := hitems.2.1
          split <;> omega
    · exact ⟨Nat.le_refl st, hst, rfl⟩
  · rw [if_pos (by omega)]
    exact ⟨Nat.le_refl st, hst, rfl⟩

theorem form_bounded {st : Nat} (hst : st ≤ src.size) : Bounded src st (form src st) := by
  have hlist := list_bounded hst fun k hk hle => form_bounded hle
  rw [form, if_neg (Nat.not_lt.mpr hst)]
  refine bounded_firstOf hst nofun ?_
  simp only [formReaders, List.zip_cons_cons, List.zip_nil_right, List.forall_mem_cons]
  exact ⟨hlist, Token.str_bounded hst, Token.num_bounded hst, Token.var_bounded hst, Token.atom_bounded hst, nofun⟩
termination_by src.size - st
decreasing_by omega

end Listing

namespace Grammar

/-- Every reader of listings stays in the text it is started in. A form spans what was read, and every form in it spans
bytes of the text, those of a list one after the other between its parentheses. -/
theorem read_bounded {src : Array UInt8} {st : Nat} (h : st ≤ src.size) :
    ∀ g ∈ [form, list, str, num, var, atom], Reading.Bounded src st (g.read src st) := by
  simp only [List.forall_mem_cons]
  exact ⟨Listing.form_bounded h, Listing.list_bounded h fun k _ => Listing.form_bounded, Token.str_bounded h,
    Token.num_bounded h, Token.var_bounded h, Token.atom_bounded h, nofun⟩

/-- A comment with a quote and a parenthesis in it, and a string with a semicolon. -/
theorem read_bounded_comment :
    Grammar.read (utf8 "(f ;\")\n \"a;\")").toArray .form 0 = .ok (.list 0 13 [.atom 1 2, .str 8 12 (utf8 "a;")]) 13 ∧
    Form.Enclosed (utf8 "(f ;\")\n \"a;\")").toArray 0 13 [.atom 1 2, .str 8 12 (utf8 "a;")] := by
  have hread : Listing.form (utf8 "(f ;\")\n \"a;\")").toArray 0 =
      .ok (.list 0 13 [.atom 1 2, .str 8 12 (utf8 "a;")]) 13 := by with_unfolding_all rfl
  have hbounded := read_bounded (Nat.zero_le (utf8 "(f ;\")\n \"a;\")").toArray.size) form (by simp)
  replace hread : Grammar.read (utf8 "(f ;\")\n \"a;\")").toArray .form 0 = _ := hread
  rw [hread] at hbounded
  obtain ⟨-, -, -, hplaced⟩ := hbounded
  exact ⟨hread, (hplaced _ (.refl _)).2 _ _ _ rfl⟩

end Grammar

end OpTree
