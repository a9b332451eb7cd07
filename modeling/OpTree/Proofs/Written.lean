import OpTree.Proofs.Tokens

/-!
# Written forms

What a listing says, apart from places: data made of lists, atoms, variables, integers and strings. Data
can be written in many ways, with any blanks and comments between neighbours and around parentheses, and
with more or fewer escapes in strings. However data is written, reading gives it back.
-/

namespace OpTree

set_option autoImplicit false

inductive Datum where
  | list (items : List Datum)
  | atom (text : Bytes)
  | var (text : Bytes)
  | int (text : Bytes)
  | str (val : Bytes)

namespace Datum

def IsList : Datum → Prop
  | list _ => True
  | _ => False

end Datum

namespace Form

mutual

/-- What a form says; there are forms that no data stands for. -/
def datum? (src : Array UInt8) : Form → Option Datum
  | .list _ _ items => (data? src items).map .list
  | .atom pos stop => some (.atom (slice src pos stop))
  | .var pos stop => some (.var (slice src pos stop))
  | .int pos stop => some (.int (slice src pos stop))
  | .str _ _ val => some (.str val)
  | .float .. | .fixed _ | .word _ => none

def data? (src : Array UInt8) : List Form → Option (List Datum)
  | [] => some []
  | f :: fs => do
    let d ← datum? src f
    let ds ← data? src fs
    return d :: ds

end

end Form

namespace Listing

mutual

inductive Written : Datum → Bytes → Prop where
  | atom {t : Bytes} (h : IsIdent t) : Written (.atom t) t
  | label {t : Bytes} (h : IsIdent t) : Written (.atom (58 :: t)) (58 :: t)
  | var {s : UInt8} {t : Bytes} (hs : s ∈ [36, 64, 37]) (h : IsIdent t) : Written (.var (s :: t)) (s :: t)
  | int {t : Bytes} (h : IsInteger t) : Written (.int t) t
  | str {v w : Bytes} (h : Quoted v w) : Written (.str v) (34 :: w ++ [34])
  | list {ds : List Datum} {w t : Bytes} (h : Row ds w t) : Written (.list ds) (40 :: (w ++ t) ++ [41])

/-- Data in a row: the layout in front of them, and the text from the first of them up to the end, with the
layout there. Neighbours of which neither is a list have some layout between them. -/
inductive Row : List Datum → Bytes → Bytes → Prop where
  | nil {w : Bytes} (hw : Layout w) : Row [] w []
  | cons {d : Datum} {ds : List Datum} {w t v u : Bytes} (hw : Layout w) (hd : Written d t)
      (hds : Row ds v u) (hgap : v ≠ [] ∨ d.IsList ∨ ∀ e ∈ ds.head?, e.IsList) :
      Row (d :: ds) w (t ++ (v ++ u))

end

end Listing

namespace Listing

section Choice

variable {src : Array UInt8} {i : Nat} {b : UInt8} {r t u v w : Bytes} {d : Datum} {ds : List Datum}

/-- A reader that fails without having moved is passed over. -/
def Passes (x : Reading) (i : Nat) : Prop := ∃ why : Failure, x = .fail why i ∧ why.isFatal = false

theorem firstOf_pass {x : Reading} {name otherwise : Bytes} {rest : List (Bytes × Reading)} (h : Passes x i) :
    Reading.firstOf i otherwise none ((name, x) :: rest) = Reading.firstOf i otherwise none rest := by
  obtain ⟨why, rfl, hwhy⟩ := h
  simp [Reading.firstOf, hwhy]

theorem firstOf_ok {f : Form} {j : Nat} {name otherwise : Bytes} {rest : List (Bytes × Reading)} :
    Reading.firstOf i otherwise none ((name, .ok f j) :: rest) = .ok f j := rfl

theorem list_passes (h : Ahead src i (b :: t)) (hb : b ≠ 40) : Passes (list src i) i := by
  rw [list, dif_pos h.lt, h.get, if_neg (by simpa using hb)]
  exact ⟨_, rfl, rfl⟩

theorem str_passes (h : Ahead src i (b :: t)) (hb : b ≠ 34) : Passes (Token.str src i) i := by
  rw [Token.str, if_neg (Nat.not_lt.mpr (Nat.le_of_lt h.lt)), if_neg (by simpa [h.getElem?] using hb)]
  exact ⟨_, rfl, rfl⟩

theorem num_passes (h : Ahead src i (b :: t)) (hsign : Token.isSign (some b) = false)
    (hdigit : Bytes.isDigit b = false) (hpoint : b ≠ 46) : Passes (Token.num src i) i := by
  have hhead : src[i]? = some b := h.getElem?
  have hzero : (some b == some 48) = false := by
    simp only [Option.some_beq_some, beq_eq_false_iff_ne, ne_eq]
    rintro rfl
    exact absurd hdigit (by decide)
  have hscan : Token.decimalEnd src i i false false = (i, false) := by
    rw [Token.decimalEnd, dif_pos h.lt, h.get]
    simp [hdigit, hpoint]
  simp only [Token.num, hhead, hsign, Bool.false_eq_true, if_false, hzero, Bool.false_and, hscan]
  exact ⟨_, rfl, rfl⟩

theorem var_passes (h : Ahead src i (b :: t)) (hb : Token.isSigil b = false) : Passes (Token.var src i) i := by
  have hhead : src[i]? = some b := h.getElem?
  simp only [Token.var, if_neg (Nat.not_lt.mpr (Nat.le_of_lt h.lt)), hhead, hb, Bool.false_eq_true, if_false]
  exact ⟨_, rfl, rfl⟩

theorem form_eq (h : i < src.size) : form src i = Reading.firstOf i formExpected none
    [(utf8 "parse.List", list src i), (utf8 "parse.Str", Token.str src i), (utf8 "parse.Num", Token.num src i),
      (utf8 "parse.Var", Token.var src i), (utf8 "parse.Atom", Token.atom src i)] := by
  rw [form, if_neg (Nat.not_lt.mpr (Nat.le_of_lt h))]
  rfl

/-- A byte at which a form may begin: it belongs to no layout and closes nothing. -/
def Opens (b : UInt8) : Prop := b ∉ [32, 9, 13, 10, 59, 41]

theorem Opens.skipped (h : Opens b) : SpaceSet.all.contains b = false ∧ b ≠ 59 := by
  simp only [Opens, List.mem_cons, List.not_mem_nil, or_false, not_or] at h
  simp [SpaceSet.contains, SpaceSet.all, h]

theorem identStart_plain (h : Token.isIdentStart b = true) : Opens b ∧ b ≠ 40 ∧ b ≠ 34 ∧ b ≠ 46 ∧
    Token.isSign (some b) = false ∧ Bytes.isDigit b = false ∧ Token.isSigil b = false := by
  have hne : ∀ c : UInt8, Token.isIdentStart c = false → b ≠ c := by
    rintro c hc rfl
    rw [h] at hc
    cases hc
  refine ⟨?_, hne 40 rfl, hne 34 rfl, hne 46 rfl, ?_, ?_, ?_⟩
  · simp [Opens, hne 32 rfl, hne 9 rfl, hne 13 rfl, hne 10 rfl, hne 59 rfl, hne 41 rfl]
  · simp [Token.isSign, hne 45 rfl, hne 43 rfl]
  · simp only [Token.isIdentStart, Bytes.isLetter, Bool.or_eq_true, Bool.and_eq_true, decide_eq_true_eq,
      beq_iff_eq, UInt8.le_iff_toNat_le, ← UInt8.toNat_inj, UInt8.reduceToNat] at h
    simp only [Bytes.isDigit, Bool.and_eq_false_iff, decide_eq_false_iff_not, UInt8.le_iff_toNat_le,
      UInt8.reduceToNat]
    omega
  · simp [Token.isSigil, hne 36 rfl, hne 64 rfl, hne 37 rfl]

theorem cons_of_isInteger (h : IsInteger t) : ∃ b u, t = b :: u ∧ Opens b ∧ b ≠ 40 ∧ b ≠ 34 := by
  obtain ⟨sign, digits, rfl, hsign, hne, hdigits⟩ := h
  obtain ⟨d, ds, rfl⟩ := List.exists_cons_of_ne_nil hne
  have hd := hdigits d (by simp)
  have hne : ∀ c : UInt8, Bytes.isDigit c = false → d ≠ c := by
    rintro c hc rfl
    rw [hd] at hc
    cases hc
  simp only [List.mem_cons, List.not_mem_nil, or_false] at hsign
  rcases hsign with rfl | rfl | rfl
  · refine ⟨d, ds, rfl, ?_, hne 40 rfl, hne 34 rfl⟩
    simp [Opens, hne 32 rfl, hne 9 rfl, hne 13 rfl, hne 10 rfl, hne 59 rfl, hne 41 rfl]
  · exact ⟨43, d :: ds, rfl, by simp [Opens], by decide, by decide⟩
  · exact ⟨45, d :: ds, rfl, by simp [Opens], by decide, by decide⟩

theorem sigil_plain {s : UInt8} (hs : s ∈ [36, 64, 37]) : Opens s ∧ s ≠ 40 ∧ s ≠ 34 ∧ s ≠ 46 ∧
    Token.isSign (some s) = false ∧ Bytes.isDigit s = false := by
  simp only [List.mem_cons, List.not_mem_nil, or_false] at hs
  rcases hs with rfl | rfl | rfl <;> simp [Opens] <;> decide

theorem opens_of_written (h : Written d t) : ∃ b u, t = b :: u ∧ Opens b ∧ (d.IsList → b = 40) := by
  cases h with
  | atom hi =>
    obtain ⟨b, u, rfl, hb, -⟩ := Token.cons_of_isIdent hi
    exact ⟨b, u, rfl, (identStart_plain hb).1, False.elim⟩
  | label hi => exact ⟨_, _, rfl, by simp [Opens], False.elim⟩
  | var hs hi => exact ⟨_, _, rfl, (sigil_plain hs).1, False.elim⟩
  | int hn =>
    obtain ⟨b, u, rfl, hb, -⟩ := cons_of_isInteger hn
    exact ⟨b, u, rfl, hb, False.elim⟩
  | str hq => exact ⟨_, _, rfl, by simp [Opens], False.elim⟩
  | list hrow => exact ⟨_, _, rfl, by simp [Opens], fun _ => rfl⟩

theorem edged_layout (h : Layout w) (hne : w ≠ []) (t : Bytes) : Edged (w ++ t) := by
  cases h with
  | nil => exact absurd rfl hne
  | blank hb hw =>
    rintro c hc
    obtain rfl := Option.some.inj hc
    simp only [List.mem_cons, List.not_mem_nil, or_false] at hb
    rcases hb with rfl | rfl | rfl | rfl <;> simp [IsEdge]
  | comment hc hw =>
    rintro c hc
    obtain rfl := Option.some.inj hc
    simp [IsEdge]

theorem edged_row (h : Row ds v u) (hgap : v ≠ [] ∨ d.IsList ∨ ∀ e ∈ ds.head?, e.IsList) (hr : Edged r) :
    d.IsList ∨ Edged (v ++ (u ++ r)) := by
  by_cases hv : v = []
  · refine (hgap.resolve_left (not_not_intro hv)).imp_right fun hnext => ?_
    subst hv
    cases h with
    | nil => exact hr
    | cons hw hd hds _ =>
      obtain ⟨b, u, rfl, -, hlist⟩ := opens_of_written hd
      obtain rfl := hlist (hnext _ rfl)
      rintro c hc
      obtain rfl := Option.some.inj hc
      simp [IsEdge]
  · refine Or.inr ?_
    cases h with
    | nil hw => exact edged_layout hw hv _
    | cons hw => exact edged_layout hw hv _

theorem edged_close : Edged (41 :: r) := by
  rintro c hc
  obtain rfl := Option.some.inj hc
  simp [IsEdge]

theorem skip_row (hw : Layout w) (ho : Opens b) (ha : Ahead src i (w ++ b :: t)) :
    SpaceSet.all.skip src i = i + w.length := by
  refine skip_layout hw ha ?_
  rintro c hc
  obtain rfl := Option.some.inj hc
  exact ho.skipped

theorem items_close {st j : Nat} {acc : List Form} (hskip : SpaceSet.all.skip src i = j)
    (ha : Ahead src j (41 :: t)) :
    items src st i acc = .ok (.list 0 0 acc.reverse) j := by
  rw [items]
  simp only [hskip, ha.lt, ha.get]
  rfl

theorem items_step {st j k : Nat} {f : Form} {acc : List Form} (hskip : SpaceSet.all.skip src i = j)
    (ha : Ahead src j (b :: t)) (ho : Opens b) (hform : form src j = .ok f k) (hk : j < k) :
    items src st i acc = items src st k (f :: acc) := by
  have hnot : b ≠ 41 := fun hb => ho (by simp [hb])
  rw [items]
  simp only [hskip, ha.lt, dif_pos, ha.get, beq_iff_eq, hnot, if_false, hform, hk, if_true]

end Choice

mutual

theorem form_written {src : Array UInt8} {d : Datum} {t : Bytes} (h : Written d t) {i : Nat} {r : Bytes}
    (ha : Ahead src i (t ++ r)) (hr : d.IsList ∨ Edged r) :
    ∃ f, form src i = .ok f (i + t.length) ∧ Form.datum? src f = some d := by
  have hlt : i < src.size := by
    obtain ⟨b, u, rfl, -⟩ := opens_of_written h
    exact ha.lt
  rw [form_eq hlt]
  cases h with
  | atom hi =>
    have hedge := hr.resolve_left id
    obtain ⟨b, u, hcons, hb, -⟩ := Token.cons_of_isIdent hi
    obtain ⟨-, hparen, hquote, hpoint, hsign, hdigit, hsigil⟩ := identStart_plain hb
    have hb : Ahead src i (b :: (u ++ r)) := by rwa [hcons] at ha
    rw [firstOf_pass (list_passes hb hparen), firstOf_pass (str_passes hb hquote),
      firstOf_pass (num_passes hb hsign hdigit hpoint), firstOf_pass (var_passes hb hsigil),
      Token.atom_ahead hi ha hedge, firstOf_ok]
    exact ⟨_, rfl, by rw [Form.datum?, ha.slice]⟩
  | label hi =>
    have hedge := hr.resolve_left id
    rw [firstOf_pass (list_passes ha (by decide)), firstOf_pass (str_passes ha (by decide)),
      firstOf_pass (num_passes ha rfl rfl (by decide)), firstOf_pass (var_passes ha rfl),
      Token.label_ahead hi ha hedge, firstOf_ok]
    exact ⟨_, rfl, by rw [Form.datum?, ha.slice]⟩
  | @var s t hs hi =>
    have hedge := hr.resolve_left id
    obtain ⟨-, hparen, hquote, hpoint, hsign, hdigit⟩ := sigil_plain hs
    rw [firstOf_pass (list_passes ha hparen), firstOf_pass (str_passes ha hquote),
      firstOf_pass (num_passes ha hsign hdigit hpoint), Token.var_ahead hs hi ha hedge, firstOf_ok]
    exact ⟨_, rfl, by rw [Form.datum?, ha.slice]⟩
  | int hn =>
    have hedge := hr.resolve_left id
    obtain ⟨b, u, hcons, -, hparen, hquote⟩ := cons_of_isInteger hn
    have hb : Ahead src i (b :: (u ++ r)) := by rwa [hcons] at ha
    rw [firstOf_pass (list_passes hb hparen), firstOf_pass (str_passes hb hquote),
      Token.num_ahead hn ha hedge, firstOf_ok]
    exact ⟨_, rfl, by rw [Form.datum?, ha.slice]⟩
  | str hq =>
    rw [firstOf_pass (list_passes ha (by decide)), Token.str_ahead hq ha, firstOf_ok]
    exact ⟨_, rfl, rfl⟩
  | @list ds w t hrow =>
    have hopen : Ahead src i (40 :: (w ++ (t ++ 41 :: r))) := by simpa using ha
    obtain ⟨fs, hitems, hsays⟩ := items_row hrow (i + 1) [] hopen.tail
    have hlist : list src i = .ok (.list i (i + (40 :: (w ++ t) ++ [41]).length) fs)
        (i + (40 :: (w ++ t) ++ [41]).length) := by
      rw [list, dif_pos hopen.lt, hopen.get, if_pos (by decide), hitems]
      have hlen : i + 1 + (w.length + t.length) + 1 = i + (40 :: (w ++ t) ++ [41]).length := by
        simp only [List.length_append, List.length_cons, List.length_nil]
        omega
      simp [Reading.inside, hlen]
    rw [hlist, firstOf_ok]
    exact ⟨_, rfl, by rw [Form.datum?, hsays]; rfl⟩

theorem items_row {src : Array UInt8} {ds : List Datum} {w t : Bytes} (h : Row ds w t) (st : Nat)
    (acc : List Form) {i : Nat} {r : Bytes} (ha : Ahead src i (w ++ (t ++ 41 :: r))) :
    ∃ fs, items src st i acc = .ok (.list 0 0 (acc.reverse ++ fs)) (i + (w.length + t.length)) ∧
      Form.data? src fs = some ds := by
  cases h with
  | nil hw =>
    have hskip : SpaceSet.all.skip src i = i + w.length := by
      refine skip_layout hw ha ?_
      rintro c hc
      obtain rfl := Option.some.inj hc
      decide
    refine ⟨[], ?_, rfl⟩
    rw [items_close hskip ha.append, List.append_nil]
    rfl
  | @cons d ds w t v u hw hd hds hgap =>
    have hitem : Ahead src (i + w.length) (t ++ (v ++ (u ++ 41 :: r))) := by simpa using ha.append
    obtain ⟨f, hform, hsays⟩ := form_written hd hitem (edged_row hds hgap edged_close)
    obtain ⟨fs, hitems, hall⟩ := items_row hds st (f :: acc) hitem.append
    refine ⟨f :: fs, ?_, by rw [Form.data?, hsays, hall]; rfl⟩
    obtain ⟨b, t, rfl, hopen, -⟩ := opens_of_written hd
    have hskip : SpaceSet.all.skip src i = i + w.length := skip_row hw hopen (by simpa using ha)
    have hlen : i + w.length + (b :: t).length + (v.length + u.length) =
        i + (w.length + (b :: t ++ (v ++ u)).length) := by
      rw [List.length_append, List.length_append]
      omega
    rw [items_step hskip hitem hopen hform (by simp), hitems, hlen, List.reverse_cons, List.append_assoc]
    rfl

end

end Listing

namespace Source

theorem readFrom_row {s : Source} {ds : List Datum} {w t : Bytes} (h : Listing.Row ds w t) (acc : List Form)
    {i : Nat} (ha : Ahead s.text i (w ++ t)) :
    ∃ fs, s.readFrom .form i acc = ⟨acc.reverse ++ fs, none⟩ ∧ Form.data? s.text fs = some ds := by
  induction ds generalizing w t i acc with
  | nil =>
    cases h with
    | nil hw =>
    have hskip : SpaceSet.all.skip s.text i = i + w.length := skip_layout hw ha (by simp)
    have hend : ¬ i + w.length < s.text.size := Nat.not_lt.mpr ha.append.le
    refine ⟨[], ?_, rfl⟩
    rw [readFrom]
    simp [hskip, hend]
  | cons d ds ih =>
    cases h with
    | @cons _ _ _ t v u hw hd hds hgap =>
    have hitem : Ahead s.text (i + w.length) (t ++ (v ++ u)) := ha.append
    have hedge : d.IsList ∨ Edged (v ++ (u ++ [])) := Listing.edged_row hds hgap (by simp [Edged])
    rw [List.append_nil] at hedge
    obtain ⟨f, hform, hsays⟩ := Listing.form_written hd hitem hedge
    replace hform : Grammar.read s.text .form (i + w.length) = .ok f (i + w.length + t.length) := hform
    obtain ⟨fs, hread, hall⟩ := ih hds (f :: acc) hitem.append
    refine ⟨f :: fs, ?_, by rw [Form.data?, hsays, hall]; rfl⟩
    obtain ⟨b, t, rfl, hopen, -⟩ := Listing.opens_of_written hd
    have hskip : SpaceSet.all.skip s.text i = i + w.length := Listing.skip_row hw hopen ha
    rw [readFrom]
    simp only [hskip, Ahead.lt hitem, dif_pos, hform]
    rw [if_pos (by simp), hread]
    simp

/-- However data is written, reading the text gives exactly these data. -/
theorem forms_written {name w t : Bytes} {ds : List Datum} (h : Listing.Row ds w t) :
    ∃ fs, (Source.ofFile name (w ++ t)).forms = .ok fs ∧
      Form.data? (Source.ofFile name (w ++ t)).text fs = some ds := by
  have htext : (Source.ofFile name (w ++ t)).text = (w ++ t).toArray := by simp [ofFile, addFile]
  obtain ⟨fs, hread, hsays⟩ := readFrom_row h [] (s := Source.ofFile name (w ++ t)) (i := 0)
    (by rw [htext]; exact Ahead.start _)
  exact ⟨fs, by simp [forms, read, hread], hsays⟩

/-- A comment, a string with escapes, a list without blanks around it and a list that says nothing. -/
theorem forms_written_greeting : ∃ w t fs, w ++ t = utf8 ";hi\n(print \"\\\"\\n\"($i -12) :né())\t@xs\r\n" ∧
    (Source.ofFile [] (w ++ t)).forms = .ok fs ∧ Form.data? (Source.ofFile [] (w ++ t)).text fs =
      some [.list [.atom (utf8 "print"), .str [34, 10], .list [.var (36 :: utf8 "i"), .int (45 :: utf8 "12")],
        .atom (58 :: utf8 "né"), .list []], .var (64 :: utf8 "xs")] := by
  have space : Listing.Layout [32] := .blank (by decide) .nil
  have print : Listing.Written (.atom (utf8 "print")) _ := .atom (by decide +kernel)
  have label : Listing.Written (.atom (58 :: utf8 "né")) _ := .label (by decide +kernel)
  have index : Listing.Written (.var (36 :: utf8 "i")) _ := .var (by decide) (by decide +kernel)
  have array : Listing.Written (.var (64 :: utf8 "xs")) _ := .var (by decide) (by decide +kernel)
  have number : Listing.Written (.int (45 :: utf8 "12")) _ := .int ⟨[45], utf8 "12", rfl, by decide +kernel⟩
  have quoted : Listing.Written (.str [34, 10]) _ := .str (.itself (by decide) (.letter (c := 110) (by decide) .nil))
  have pair := Listing.Row.cons .nil index (.cons space number (.nil .nil) (by simp)) (by simp)
  have items := Listing.Row.cons .nil print (.cons space quoted (.cons .nil (.list pair) (.cons space label
    (.cons .nil (.list (.nil .nil)) (.nil .nil) (by simp)) (by simp [Datum.IsList])) (by simp))
    (by simp [Datum.IsList])) (by simp)
  have row := Listing.Row.cons (.comment (c := utf8 "hi") (by decide) .nil) (.list items) (.cons
    (.blank (b := 9) (by decide) .nil) array (.nil (.blank (b := 13) (by decide) (.blank (b := 10) (by decide) .nil)))
    (by simp)) (by simp)
  obtain ⟨fs, hread, hsays⟩ := forms_written row
  exact ⟨_, _, fs, by decide +kernel, hread, hsays⟩

end Source

end OpTree
