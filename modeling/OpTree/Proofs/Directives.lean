import OpTree.Format.Directive
import OpTree.Proofs.Runs

/-!
# The parts of a format

A format falls into its parts in exactly one way: a text goes up to the next percent sign, and every section
of a directive is taken as far as its bytes go. The parts that are read are these, so what counts the
arguments of a format and what prints them see the same directives.
-/

namespace OpTree

set_option autoImplicit false

namespace Directive

/-! ## One directive -/

/-- What stands behind the flags of a directive, and behind each section after them. -/
def afterSize (d : Directive) : Bytes := d.verb?.toList

def afterPrec (d : Directive) : Bytes := d.size ++ d.afterSize

def afterWidth (d : Directive) : Bytes := d.prec ++ d.afterPrec

def afterVector (d : Directive) : Bytes := d.width ++ d.afterWidth

def afterFlags (d : Directive) : Bytes := (if d.vector then [118] else []) ++ d.afterVector

/-- Each section holds bytes of its own kind only, and the next one does not begin with another of them. -/
structure Formed (d : Directive) : Prop where
  flags : ∀ b ∈ d.flags, isFlag b = true
  flags_end : Past isFlag d.afterFlags
  vector_end : d.vector = false → Past (· == 118) d.afterVector
  width : ∀ b ∈ d.width, isCount b = true
  width_end : Past isCount d.afterWidth
  prec : d.prec = [] ∧ Past (· == 46) d.afterPrec ∨
    ∃ n, d.prec = 46 :: n ∧ (∀ b ∈ n, isCount b = true) ∧ Past isCount d.afterPrec
  size : ∀ b ∈ d.size, isSize b = true
  size_end : Past isSize d.afterSize

variable {d : Directive} {s r t : Bytes}

theorem splitVector_of_past (h : Past (· == 118) s) : splitVector s = (false, s) := by
  unfold splitVector
  split
  · simpa using h 118 rfl
  · rfl

theorem splitVector_eq_iff {v : Bool} : splitVector s = (v, t) ↔
    s = (if v then [118] else []) ++ t ∧ (v = false → Past (· == 118) t) := by
  constructor
  · intro h
    unfold splitVector at h
    split at h
    · obtain ⟨rfl, rfl⟩ := Prod.mk.inj h
      exact ⟨rfl, nofun⟩
    · rename_i hne
      obtain ⟨rfl, rfl⟩ := Prod.mk.inj h
      refine ⟨rfl, fun _ b hb => ?_⟩
      obtain ⟨r, rfl⟩ := List.head?_eq_some_iff.mp hb
      simpa using fun e : b = 118 => hne r (by rw [e])
  · rintro ⟨rfl, h⟩
    cases v with
    | true => rfl
    | false => exact splitVector_of_past (h rfl)

theorem splitPrec_eq_iff : splitPrec s = (t, r) ↔ s = t ++ r ∧
    (t = [] ∧ Past (· == 46) r ∨ ∃ n, t = 46 :: n ∧ (∀ b ∈ n, isCount b = true) ∧ Past isCount r) := by
  constructor
  · intro h
    unfold splitPrec at h
    split at h
    · rename_i s
      obtain ⟨rfl, rfl⟩ := Prod.mk.inj h
      obtain ⟨hs, hn, hr⟩ := span_iff.mp ⟨rfl, rfl⟩
      exact ⟨congrArg (46 :: ·) hs, Or.inr ⟨_, rfl, hn, hr⟩⟩
    · rename_i hne
      obtain ⟨rfl, rfl⟩ := Prod.mk.inj h
      refine ⟨rfl, Or.inl ⟨rfl, fun b hb => ?_⟩⟩
      obtain ⟨r, rfl⟩ := List.head?_eq_some_iff.mp hb
      simpa using fun e : b = 46 => hne r (by rw [e])
  · rintro ⟨rfl, ⟨rfl, hr⟩ | ⟨n, rfl, hn, hr⟩⟩
    · rw [List.nil_append]
      unfold splitPrec
      split
      · simpa using hr 46 rfl
      · rfl
    · obtain ⟨htake, hdrop⟩ := span_iff.mpr ⟨rfl, hn, hr⟩
      simp only [List.cons_append, splitPrec, htake, hdrop]

theorem splitVerb_eq_iff {v : Option UInt8} : splitVerb s = (v, t) ↔ s = v.toList ++ t ∧ (v = none → t = []) := by
  cases s <;> cases v <;> simp +contextual [splitVerb, eq_comm]

theorem raw_eq (d : Directive) : d.raw = 37 :: (d.flags ++ d.afterFlags) := by
  simp [raw, afterFlags, afterVector, afterWidth, afterPrec, afterSize]

/-- A directive without a verb ends the text, so nothing else can follow where its last sections are empty. -/
theorem nil_of_after (h : d.verb? = none → r = []) : (d.afterFlags = [] → r = []) ∧
    (d.afterVector = [] → r = []) ∧ (d.afterWidth = [] → r = []) ∧ (d.afterPrec = [] → r = []) ∧
    (d.afterSize = [] → r = []) := by
  have size : d.afterSize = [] → r = [] := fun e => h (by simpa [afterSize] using e)
  have prec : d.afterPrec = [] → r = [] := fun e => size (List.append_eq_nil_iff.mp e).2
  have width : d.afterWidth = [] → r = [] := fun e => prec (List.append_eq_nil_iff.mp e).2
  have vector : d.afterVector = [] → r = [] := fun e => width (List.append_eq_nil_iff.mp e).2
  exact ⟨fun e => vector (List.append_eq_nil_iff.mp e).2, vector, width, prec, size⟩

/-- Reading takes a directive off a text exactly if all its sections are as long as they can be, and a verb
is missing only where the text ends. -/
theorem parse_eq_iff : parse s = (d, r) ↔
    s = d.flags ++ (d.afterFlags ++ r) ∧ d.Formed ∧ (d.verb? = none → r = []) := by
  constructor
  · intro h
    rcases hv : splitVector (s.dropWhile isFlag) with ⟨v, s₁⟩
    rcases hp : splitPrec (s₁.dropWhile isCount) with ⟨p, s₂⟩
    rcases hb : splitVerb (s₂.dropWhile isSize) with ⟨b, s₃⟩
    simp only [parse, hv, hp, hb, Prod.mk.injEq] at h
    obtain ⟨rfl, rfl⟩ := h
    obtain ⟨hs, flags, flagsEnd⟩ := span_iff (p := isFlag) (s := s).mp ⟨rfl, rfl⟩
    obtain ⟨hs₁, width, widthEnd⟩ := span_iff (p := isCount) (s := s₁).mp ⟨rfl, rfl⟩
    obtain ⟨hs₂, size, sizeEnd⟩ := span_iff (p := isSize) (s := s₂).mp ⟨rfl, rfl⟩
    obtain ⟨hvs, vectorEnd⟩ := splitVector_eq_iff.mp hv
    obtain ⟨hps, prec⟩ := splitPrec_eq_iff.mp hp
    obtain ⟨hbs, verb⟩ := splitVerb_eq_iff.mp hb
    generalize hd : Directive.mk (s.takeWhile isFlag) v (s₁.takeWhile isCount) p (s₂.takeWhile isSize) b = d
    -- Each rest of the text is what stands behind a section of the directive, and the rest behind it.
    have afterSize : d.afterSize ++ s₃ = s₂.dropWhile isSize := by rw [← hd, hbs]; rfl
    have afterPrec : d.afterPrec ++ s₃ = s₂ := by
      rw [Directive.afterPrec, List.append_assoc, afterSize, ← hd, ← hs₂]
    have afterWidth : d.afterWidth ++ s₃ = s₁.dropWhile isCount := by
      rw [Directive.afterWidth, List.append_assoc, afterPrec, ← hd, hps]
    have afterVector : d.afterVector ++ s₃ = s₁ := by
      rw [Directive.afterVector, List.append_assoc, afterWidth, ← hd, ← hs₁]
    have afterFlags : d.afterFlags ++ s₃ = s.dropWhile isFlag := by
      rw [Directive.afterFlags, List.append_assoc, afterVector, ← hd, hvs]
    have hverb : d.verb? = none → s₃ = [] := by rwa [← hd]
    obtain ⟨flagsNil, vectorNil, widthNil, precNil, sizeNil⟩ := nil_of_after hverb
    rw [← afterFlags, past_append flagsNil] at flagsEnd
    rw [← afterVector, past_append vectorNil] at vectorEnd
    rw [← afterWidth, past_append widthNil] at widthEnd
    rw [← afterPrec, past_append precNil, past_append precNil] at prec
    rw [← afterSize, past_append sizeNil] at sizeEnd
    rw [← afterFlags] at hs
    subst hd
    exact ⟨hs, ⟨flags, flagsEnd, vectorEnd, width, widthEnd, prec, size, sizeEnd⟩, hverb⟩
  · rintro ⟨rfl, hd, hverb⟩
    obtain ⟨flagsNil, vectorNil, widthNil, precNil, sizeNil⟩ := nil_of_after hverb
    obtain ⟨takeFlags, dropFlags⟩ := span_iff.mpr ⟨rfl, hd.flags, (past_append flagsNil).mpr hd.flags_end⟩
    have vector : splitVector (d.afterFlags ++ r) = (d.vector, d.afterVector ++ r) :=
      splitVector_eq_iff.mpr ⟨List.append_assoc .., fun h => (past_append vectorNil).mpr (hd.vector_end h)⟩
    obtain ⟨takeWidth, dropWidth⟩ := span_iff (s := d.afterVector ++ r).mpr
      ⟨List.append_assoc .., hd.width, (past_append widthNil).mpr hd.width_end⟩
    have prec : splitPrec (d.afterWidth ++ r) = (d.prec, d.afterPrec ++ r) :=
      splitPrec_eq_iff.mpr ⟨List.append_assoc .., by simpa only [past_append precNil] using hd.prec⟩
    obtain ⟨takeSize, dropSize⟩ := span_iff (s := d.afterPrec ++ r).mpr
      ⟨List.append_assoc .., hd.size, (past_append sizeNil).mpr hd.size_end⟩
    have verb : splitVerb (d.afterSize ++ r) = (d.verb?, r) := splitVerb_eq_iff.mpr ⟨rfl, hverb⟩
    simp only [parse, takeFlags, dropFlags, vector, takeWidth, dropWidth, prec, takeSize, dropSize, verb]

end Directive

namespace FormatPart

/-! ## A whole format -/

/-- A format and the parts it falls into. A text goes up to the next percent sign or to the end, and a directive
has a verb unless the format ends with it. -/
inductive Splits : Bytes → List FormatPart → Prop where
  | nil : Splits [] []
  | text {s r : Bytes} {ps : List FormatPart} (hne : s ≠ []) (hs : 37 ∉ s) (hr : Past (· != 37) r)
      (h : Splits r ps) : Splits (s ++ r) (.text s :: ps)
  | directive {d : Directive} {r : Bytes} {ps : List FormatPart} (hd : d.Formed)
      (hverb : d.verb? = none → r = []) (h : Splits r ps) : Splits (d.raw ++ r) (.directive d :: ps)

variable {f s : Bytes} {d : Directive} {ps pre post : List FormatPart}

theorem splits_parse (f : Bytes) : Splits f (parse f) := by
  fun_induction parse f with
  | case1 => exact .nil
  | case2 r d ih =>
    have hread : Directive.parse r = (d.1, d.2) := rfl
    obtain ⟨hr, hd, hverb⟩ := Directive.parse_eq_iff.mp hread
    have hf : 37 :: r = d.1.raw ++ d.2 := by rw [Directive.raw_eq, List.cons_append, List.append_assoc, ← hr]
    rw [hf]
    exact .directive hd hverb ih
  | case3 b r hb ih =>
    obtain ⟨hr, hs, hpast⟩ := span_iff (p := (· != 37)) (s := r).mp ⟨rfl, rfl⟩
    have hf : b :: r = (b :: r.takeWhile (· != 37)) ++ r.dropWhile (· != 37) := by rw [List.cons_append, ← hr]
    rw [hf]
    refine .text (by simp) (fun hmem => ?_) hpast ih
    rcases List.mem_cons.mp hmem with e | hmem
    · exact hb e.symm
    · simpa using hs 37 hmem

theorem Splits.parse_eq (h : Splits f ps) : parse f = ps := by
  induction h with
  | nil => rw [parse]
  | @text s r ps hne hs hr h ih =>
    obtain ⟨b, s, rfl⟩ := List.exists_cons_of_ne_nil hne
    have hb : b ≠ 37 := fun e => hs (by simp [e])
    have hrun : ∀ c ∈ s, (c != 37) = true := by
      intro c hc
      simpa using fun e : c = 37 => hs (by simp [← e, hc])
    obtain ⟨htake, hdrop⟩ := span_iff.mpr ⟨rfl, hrun, hr⟩
    rw [List.cons_append, parse, htake, hdrop, ih]
    exact hb
  | @directive d r ps hd hverb h ih =>
    have hread : Directive.parse (d.flags ++ (d.afterFlags ++ r)) = (d, r) :=
      Directive.parse_eq_iff.mpr ⟨rfl, hd, hverb⟩
    rw [Directive.raw_eq, List.cons_append, List.append_assoc, parse, hread, ih]

theorem Splits.flatMap_raw (h : Splits f ps) : ps.flatMap raw = f := by
  induction h with
  | nil => rfl
  | text hne hs hr h ih => rw [List.flatMap_cons, ih, raw]
  | directive hd hverb h ih => rw [List.flatMap_cons, ih, raw]

theorem Splits.of_text_mem (h : Splits f ps) (hs : .text s ∈ ps) : s ≠ [] ∧ 37 ∉ s := by
  induction h with
  | nil => cases hs
  | text hne hno hr h ih =>
    rcases List.mem_cons.mp hs with e | hs
    · cases e
      exact ⟨hne, hno⟩
    · exact ih hs
  | directive hd hverb h ih => exact ih (by simpa using hs)

/-- A directive of a format is well formed, and there are no parts behind one without a verb. -/
theorem Splits.of_directive (h : Splits f (pre ++ .directive d :: post)) : d.Formed ∧ (d.verb? = none → post = []) := by
  induction pre generalizing f with
  | nil =>
    cases h with
    | directive hd hverb h =>
      refine ⟨hd, fun e => ?_⟩
      obtain rfl := hverb e
      rw [← h.parse_eq, parse]
  | cons p pre ih =>
    cases h with
    | text _ _ _ h => exact ih h
    | directive _ _ h => exact ih h

/-- The parts of a format make up the format. Its texts are not empty and have no percent sign. Its directives
consist of their sections, each as long as it can be, and only the last part can lack a verb. There is no
other way to split a format. -/
theorem parse_partition (f : Bytes) :
    (parse f).flatMap raw = f ∧
    (∀ s, .text s ∈ parse f → s ≠ [] ∧ 37 ∉ s) ∧
    (∀ pre d post, parse f = pre ++ .directive d :: post →
      d.raw = [37] ++ d.flags ++ (if d.vector then [118] else []) ++ d.width ++ d.prec ++ d.size ++ d.verb?.toList ∧
      d.Formed ∧ (d.verb? = none → post = []) ∧ (d.star = true ↔ 42 ∈ d.width ∨ 42 ∈ d.prec)) ∧
    ∀ ps, Splits f ps → ps = parse f := by
  have h := splits_parse f
  refine ⟨h.flatMap_raw, fun s => h.of_text_mem, fun pre d post e => ?_, fun ps hps => hps.parse_eq.symm⟩
  obtain ⟨hd, hlast⟩ := (e ▸ h).of_directive
  exact ⟨rfl, hd, hlast, by simp [Directive.star]⟩

/-- A width that is an argument between flags and a precision, and a directive that the format breaks off. -/
theorem parse_partition_starred : ∃ d e : Directive,
    parse (utf8 "at %-0*.2hd%l") = [.text (utf8 "at ")] ++ .directive d :: [.directive e] ∧
    37 ∉ utf8 "at " ∧ d.raw = utf8 "%-0*.2hd" ∧ d.Formed ∧ d.star = true ∧ e.Formed ∧ e.verb? = none := by
  have hparse : parse (utf8 "at %-0*.2hd%l") =
      [.text (utf8 "at "), .directive ⟨utf8 "-0", false, utf8 "*", utf8 ".2", utf8 "h", some 100⟩,
        .directive ⟨[], false, [], [], utf8 "l", none⟩] := by decide +kernel
  obtain ⟨-, texts, directives, -⟩ := parse_partition (utf8 "at %-0*.2hd%l")
  obtain ⟨hraw, hd, -, hstar⟩ := directives [_] _ [_] hparse
  obtain ⟨-, he, -⟩ := directives [_, _] _ [] hparse
  exact ⟨_, _, hparse, (texts _ (by simp [hparse])).2, hraw.trans (by decide), hd,
    hstar.mpr (Or.inl (by decide)), he, rfl⟩

end FormatPart

end OpTree
