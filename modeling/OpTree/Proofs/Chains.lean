import Mathlib.Data.Option.Basic
import OpTree.Proofs.Accesses
import OpTree.Peephole.Multideref

/-!
# Chains of element accesses

What the optimizer recognizes as a chain: which ops it consists of, in the order in which they are
executed, and what it records of each level.
-/

namespace OpTree

set_option autoImplicit false

open Machine

namespace Action

/-- The actions without an index kind and with their check. -/
def bases : List Action :=
  [padavAelem, padhvHelem, gvavAelem, gvhvHelem, padsvRv2avAelem, padsvRv2hvHelem, rv2avAelem,
    rv2hvHelem]

theorem bits_apart : ∀ act ∈ bases,
    ∀ u ∈ [act, act.or uncheckedBit, (act.or uncheckedBit).or uncheckedBit],
    ∀ k ∈ [idxConst, idxPadsv], u.kind = act.kind ∧ u.isHash = act.isHash ∧
      (u.or k).kind = act.kind ∧ (u.or k).isHash = act.isHash ∧ (u.or k).index = k ∧
      (u.or k).unchecked = decide (u ≠ act) := by
  decide +kernel

end Action

def Action.level (act : Action) (e : Node) : Action :=
  if e.code = .aelemU || e.code = .null && e.ex = .aelemU then act.or Action.uncheckedBit else act

namespace Peep

variable {α β : Type} {a b : Arena} {ps ps' : PeepState}

theorem bind_eq_ok {x : Peep α} {f : α → Peep β} {v : β} :
    (x >>= f) ps a = .ok (v, ps') b ↔
      ∃ u qs c, x ps a = .ok (u, qs) c ∧ f u qs c = .ok (v, ps') b := by
  change EStateM.bind (x ps) (fun p => f p.1 p.2) a = _ ↔ _
  unfold EStateM.bind
  cases hx : x ps a with
  | error e c => simp
  | ok p c =>
    obtain ⟨u, qs⟩ := p
    constructor
    · intro h
      exact ⟨u, qs, c, rfl, h⟩
    · rintro ⟨u', qs', c', he, h⟩
      cases he
      exact h

def Looks (x : Peep α) : Prop := ∀ ps a, ∃ v, x ps a = .ok (v, ps) a

theorem Looks.of_ok {x : Peep α} (hx : Looks x) {v : α} (h : x ps a = .ok (v, ps') b) :
    ps' = ps ∧ b = a := by
  obtain ⟨u, hu⟩ := hx ps a
  rw [hu] at h
  cases h
  exact ⟨rfl, rfl⟩

theorem looks_pure (v : α) : Looks (pure v : Peep α) := fun _ _ => ⟨v, rfl⟩

theorem Looks.bind {x : Peep α} {f : α → Peep β} (hx : Looks x) (hf : ∀ u, Looks (f u)) :
    Looks (x >>= f) := by
  intro ps a
  obtain ⟨u, hu⟩ := hx ps a
  obtain ⟨v, hv⟩ := hf u ps a
  exact ⟨v, bind_eq_ok.mpr ⟨u, ps, a, hu, hv⟩⟩

theorem Looks.ite {p : Prop} [Decidable p] {x y : Peep α} (hx : Looks x) (hy : Looks y) :
    Looks (if p then x else y) := by
  split
  · exact hx
  · exact hy

theorem looks_get : Looks (get : Peep PeepState) := fun ps _ => ⟨ps, rfl⟩

theorem looks_arena : Looks (liftM (get : TreeM Arena) : Peep Arena) := fun _ a => ⟨a, rfl⟩

theorem looks_complaint (msg : Bytes) : Looks (complaint msg) := by
  refine looks_get.bind fun ps => ?_
  split
  · exact looks_pure _
  · refine Looks.bind (fun _ a => ⟨a.node _, rfl⟩) fun n => ?_
    split <;> exact looks_pure _

theorem looks_inShape (targ : Int) (i : Int64) : Looks (inShape targ i) := by
  refine looks_arena.bind fun a => ?_
  dsimp only
  split
  · exact looks_pure _
  · exact .ite ((looks_complaint _).bind fun _ => looks_pure _) (looks_pure _)

theorem inShape_of_true {targ : Int} {i : Int64} (h : inShape targ i ps a = .ok (.ok true, ps') b) :
    Exec.InShape (a.pad.shape targ) i := by
  obtain ⟨c, qs, a', hget, h⟩ := bind_eq_ok.mp h
  cases hget
  dsimp only at h
  split at h
  · cases h
  · rename_i hshape
    by_cases hout : ((if i < 0 then i.toInt + a.pad.shape targ else i.toInt) < 0 ||
        decide (a.pad.shape targ ≤ if i < 0 then i.toInt + a.pad.shape targ else i.toInt)) = true
    · rw [if_pos hout] at h
      obtain ⟨why, qs, a', -, h⟩ := bind_eq_ok.mp h
      cases h
    · simp only [Bool.or_eq_true, decide_eq_true_eq, not_or, Int.not_lt, Int.not_le] at hout
      exact hout

/-- What is recorded of the key of a level. `e` is the element op, `ct` the slot of the array that
the chain starts with. -/
inductive KeyKind (a : Arena) (act : Action) (e : Node) (ct : Int) (l : PathLevel) : Prop where
  | var (hk : (a.node l.key).isPlainPadsv = true) (hl : l.act = act.level e)
  | text (hk : (a.node l.key).code = .const) (hh : act.isHash = true) (hl : l.act = act.level e)
      (ht : l.keyText = (a.node l.key).val.value.text)
  | index {i : Int64} (hk : (a.node l.key).constInt? = some i) (hh : act.isHash = false)
      (hl : l.act = act.level e)
  /-- The index is inside of the shape that the array has at its slot. -/
  | sure {i : Int64} (hk : (a.node l.key).constInt? = some i) (hh : act.isHash = false)
      (ha : act.kind = Action.padavAelem.byte) (hs : Exec.InShape (a.pad.shape ct) i)
      (hl : l.act = (act.level e).or Action.uncheckedBit)

/-- A level: from the op `s` that yields the container to the key and on to the element op. -/
structure Level (a : Arena) (ct : Int) (act : Action) (s elem : RecId) (l : PathLevel) : Prop where
  is_elem : isElemOf (a.node elem) act.isHash = true
  op : l.elem = elem
  kid : a.kid? elem 1 = some l.key
  blank : (a.node l.key).code ≠ .const ∨ act.isHash = false → l.keyText = []
  next : (a.node s).next = some l.key
  next_key : (a.node l.key).next = some elem
  kind : KeyKind a act (a.node elem) ct l

theorem level_of_ok {ct : Int} {act : Action} {s elem : RecId} {l : PathLevel}
    (h : pathLevel? a act s elem ct ps a = .ok (.ok (some l), ps') b) : Level a ct act s elem l := by
  unfold pathLevel? at h
  dsimp only at h
  by_cases helem : (!isElemOf (a.node elem) act.isHash) = true
  · rw [if_pos helem] at h
    cases h
  rw [if_neg helem] at h
  cases hkey : a.kid? elem 1 with
  | none =>
    rw [hkey] at h
    cases h
  | some key =>
    rw [hkey] at h
    dsimp only at h
    by_cases hnext : (a.node s).next ≠ some key ∨ (a.node key).next ≠ some elem
    · rw [if_pos (by simpa using hnext)] at h
      cases h
    rw [if_neg (by simpa using hnext)] at h
    simp only [not_or, not_not, ne_eq] at hnext
    rw [← Action.level] at h
    have hlevel {l : PathLevel} (he : l.elem = elem) (hl : l.key = key)
        (hb : (a.node key).code ≠ .const ∨ act.isHash = false → l.keyText = [])
        (hk : KeyKind a act (a.node elem) ct l) : Level a ct act s elem l := by
      subst hl
      exact ⟨by simpa using helem, he, hkey, hb, hnext.1, hnext.2, hk⟩
    by_cases hvar : (a.node key).isPlainPadsv = true
    · rw [if_pos hvar] at h
      cases h
      exact hlevel rfl rfl (fun _ => rfl) (.var hvar rfl)
    rw [if_neg hvar] at h
    by_cases hconst : (a.node key).code ≠ .const
    · rw [if_pos hconst] at h
      cases h
    rw [if_neg hconst] at h
    by_cases hhash : act.isHash = true
    · rw [if_pos hhash] at h
      cases h
      refine hlevel rfl rfl (fun hb => ?_) (.text (not_not.mp hconst) hhash rfl rfl)
      rcases hb with hb | hb
      · exact absurd (not_not.mp hconst) hb
      · rw [hhash] at hb
        cases hb
    rw [if_neg hhash] at h
    cases hi : (a.node key).constInt? with
    | none =>
      rw [hi] at h
      cases h
    | some i =>
      rw [hi] at h
      dsimp only at h
      have hhash : act.isHash = false := by simpa using hhash
      by_cases hpad : act.kind = Action.padavAelem.byte
      · rw [if_pos hpad] at h
        obtain ⟨r, qs, c, hr, h⟩ := bind_eq_ok.mp h
        cases r with
        | error why => cases h
        | ok sure =>
          cases h
          cases sure with
          | false => exact hlevel rfl rfl (fun _ => rfl) (.index hi hhash rfl)
          | true => exact hlevel rfl rfl (fun _ => rfl) (.sure hi hhash hpad (inShape_of_true hr) rfl)
      · rw [if_neg hpad] at h
        cases h
        exact hlevel rfl rfl (fun _ => rfl) (.index hi hhash rfl)

theorem looks_pathLevel (a : Arena) (act : Action) (s elem : RecId) (ct : Int) :
    Looks (pathLevel? a act s elem ct) := by
  unfold pathLevel?
  refine .ite (looks_pure _) ?_
  cases a.kid? elem 1 with
  | none => exact looks_pure _
  | some key =>
    refine .ite (looks_pure _) (.ite (looks_pure _) (.ite (looks_pure _) (.ite (looks_pure _) ?_)))
    cases (a.node key).constInt? with
    | none => exact looks_pure _
    | some i =>
      refine .ite ((looks_inShape ct i).bind fun r => ?_) (looks_pure _)
      cases r <;> exact looks_pure _

def derefBit (hash : Bool) : Priv := if hash then Priv.derefHV else Priv.derefAV

structure FirstKid (a : Arena) (k p : RecId) : Prop where
  parent : a.parent? k = some p
  first : (a.node p).first = some k

/-- An op `r` that dereferences what `e` leaves and pushes a container of the kind. -/
structure Deref (a : Arena) (hash : Bool) (e r : RecId) : Prop where
  kid : FirstKid a e r
  next : (a.node e).next = some r
  code : (a.node r).code = if hash then .rv2hv else .rv2av
  ref : (a.node r).flags.has Flags.ref = true

/-- How a chain may start: with the container of a slot, with one of a global or with one that a
scalar refers to. -/
inductive Start (a : Arena) (s : RecId) : Action → RecId → List RecId → Prop where
  | pad (hash : Bool) (hc : (a.node s).code = if hash then .padhv else .padav)
      (hf : (a.node s).flags.has Flags.ref = true) (hi : (a.node s).priv.has Priv.intro = false) :
      Start a s (if hash then .padhvHelem else .padavAelem) s [s]
  | glob (hash : Bool) {r : RecId} (hc : (a.node s).code = .gv) (hr : Deref a hash s r) :
      Start a s (if hash then .gvhvHelem else .gvavAelem) r [s, r]
  | ref (hash : Bool) {r : RecId} (hc : (a.node s).code = .padsv)
      (hi : (a.node s).priv.has Priv.intro = false) (hd : (a.node s).priv.has (derefBit hash) = true)
      (hr : Deref a hash s r) :
      Start a s (if hash then .padsvRv2hvHelem else .padsvRv2avAelem) r [s, r]

theorem guard_bind {p : Prop} [Decidable p] {f : Unit → Option α} {v : α} :
    (guard p >>= f) = some v ↔ p ∧ f () = some v := by
  by_cases hp : p
  · have hg : (guard p : Option Unit) = some () := if_pos hp
    rw [hg]
    exact ⟨fun h => ⟨hp, h⟩, fun h => h.2⟩
  · have hg : (guard p : Option Unit) = none := if_neg hp
    rw [hg]
    exact ⟨(fun h => by cases h), fun h => absurd h.1 hp⟩

theorem some_bind {x : Option α} {f : α → Option β} {v : β} :
    (x >>= f) = some v ↔ ∃ u, x = some u ∧ f u = some v := Option.bind_eq_some_iff

theorem deref_of_guards {s r : RecId} (hp : a.parent? s = some r) (hf : ((a.node r).first = some s ∧ (a.node s).next = some r) ∧
      (a.node r).flags.has Flags.ref = true)
    (hc : (a.node r).code = .rv2av ∨ (a.node r).code = .rv2hv) :
    Deref a (decide ((a.node r).code = .rv2hv)) s r := by
  refine ⟨⟨hp, hf.1.1⟩, hf.1.2, ?_, hf.2⟩
  rcases hc with hc | hc
  · simp [hc]
  · simp [hc]

theorem act_of_some {x : Option Action} {q r elem : RecId} {act : Action}
    (h : (do
      let act ← x
      let e ← a.parent? q
      guard ((a.node e).first = some q)
      return (act, q, e)) = some (act, r, elem)) : x = some act ∧ r = q ∧ FirstKid a q elem := by
  obtain ⟨act', hact, h⟩ := some_bind.mp h
  obtain ⟨e, he, h⟩ := some_bind.mp h
  obtain ⟨hfirst, h⟩ := guard_bind.mp h
  cases h
  exact ⟨hact, rfl, he, hfirst⟩

/-- The op `p` is reached from `s` by going up from first kids. -/
inductive Stem (a : Arena) (s : RecId) : RecId → Prop where
  | refl : Stem a s s
  | up {k p : RecId} (h : Stem a s k) (hk : FirstKid a k p) : Stem a s p

theorem start_of_some {s r elem : RecId} {act : Action} (h : pathStart? a s = some (act, r, elem)) :
    (∃ ops, Start a s act r ops) ∧ Stem a s r ∧ FirstKid a r elem := by
  have hpad (hash : Bool) (hc : (a.node s).code = if hash then .padhv else .padav)
      (h : (do
        guard ((a.node s).flags.has Flags.ref && !(a.node s).priv.has Priv.intro)
        let elem ← a.parent? s
        guard ((a.node elem).first = some s)
        return (if hash then .padhvHelem else .padavAelem, s, elem)) = some (act, r, elem)) :
      (∃ ops, Start a s act r ops) ∧ Stem a s r ∧ FirstKid a r elem := by
    obtain ⟨hf, h⟩ := guard_bind.mp h
    obtain ⟨e, he, h⟩ := some_bind.mp h
    obtain ⟨hfirst, h⟩ := guard_bind.mp h
    cases h
    simp only [Bool.and_eq_true, Bool.not_eq_true'] at hf
    exact ⟨⟨_, .pad hash hc hf.1 hf.2⟩, .refl, he, hfirst⟩
  unfold pathStart? at h
  cases hc : (a.node s).code with
  | padav =>
    simp only [hc] at h
    exact hpad false hc h
  | padhv =>
    simp only [hc] at h
    exact hpad true hc h
  | gv =>
    simp only [hc] at h
    obtain ⟨q, hq, h⟩ := some_bind.mp h
    obtain ⟨hf, h⟩ := guard_bind.mp h
    obtain ⟨hd, h⟩ := guard_bind.mp h
    simp only [Bool.and_eq_true, decide_eq_true_eq, Bool.or_eq_true] at hf hd
    obtain ⟨hact, rfl, hkid⟩ := act_of_some h
    cases hact
    exact ⟨⟨_, .glob _ hc (deref_of_guards hq hf hd)⟩, .up .refl ⟨hq, hf.1.1⟩, hkid⟩
  | padsv =>
    simp only [hc] at h
    obtain ⟨q, hq, h⟩ := some_bind.mp h
    obtain ⟨hf, h⟩ := guard_bind.mp h
    obtain ⟨hd, h⟩ := guard_bind.mp h
    simp only [Bool.and_eq_true, decide_eq_true_eq, Bool.or_eq_true] at hf hd
    have hderef := deref_of_guards hq hf hd
    have hstem : Stem a s q := .up .refl ⟨hq, hf.1.1⟩
    simp only [reduceCtorEq, if_false] at h
    split at h
    · cases (act_of_some h).1
    rename_i hplain
    simp only [Bool.or_eq_true, not_or, Bool.not_eq_true] at hplain
    split at h
    · rename_i hbit
      obtain ⟨hact, rfl, hkid⟩ := act_of_some h
      cases hact
      simp only [Bool.and_eq_true, decide_eq_true_eq] at hbit
      simp only [hbit.1, decide_true] at hderef
      exact ⟨⟨_, .ref true hc hplain.1 hbit.2 hderef⟩, hstem, hkid⟩
    · split at h
      · rename_i hbit
        obtain ⟨hact, rfl, hkid⟩ := act_of_some h
        cases hact
        simp only [Bool.and_eq_true, Bool.not_eq_true', decide_eq_false_iff_not] at hbit
        simp only [hbit.1, decide_false] at hderef
        exact ⟨⟨_, .ref false hc hplain.1 hbit.2 hderef⟩, hstem, hkid⟩
      · cases (act_of_some h).1
  | _ => simp [hc] at h

theorem next_of_some {elem r next : RecId} {act : Action}
    (h : nextLevel? a elem = some (act, r, next)) :
    (∃ hash, act = (if hash then .rv2hvHelem else .rv2avAelem) ∧ Deref a hash elem r ∧
      (a.node elem).priv.has (derefBit hash) = true) ∧ FirstKid a r next := by
  unfold nextLevel? at h
  obtain ⟨q, hq, h⟩ := some_bind.mp h
  obtain ⟨hf, h⟩ := guard_bind.mp h
  simp only [Bool.and_eq_true, decide_eq_true_eq] at hf
  split at h
  · rename_i hbit
    obtain ⟨hact, rfl, hkid⟩ := act_of_some h
    cases hact
    simp only [Bool.and_eq_true, decide_eq_true_eq] at hbit
    exact ⟨⟨false, rfl, ⟨⟨hq, hf.1.1⟩, hf.1.2, hbit.1, hf.2⟩, hbit.2⟩, hkid⟩
  · split at h
    · rename_i hbit
      obtain ⟨hact, rfl, hkid⟩ := act_of_some h
      cases hact
      simp only [Bool.and_eq_true, decide_eq_true_eq] at hbit
      exact ⟨⟨true, rfl, ⟨⟨hq, hf.1.1⟩, hf.1.2, hbit.1, hf.2⟩, hbit.2⟩, hkid⟩
    · cases (act_of_some h).1

theorem user_of_some {elem top : RecId} (h : elemUser? a elem = some top) :
    (a.node elem).next = some top ∧
      ((a.node top).code = .existsElem ∨ (a.node top).code = .deleteElem) ∧ FirstKid a elem top := by
  unfold elemUser? at h
  obtain ⟨q, hq, h⟩ := some_bind.mp h
  obtain ⟨hf, h⟩ := guard_bind.mp h
  obtain ⟨hc, h⟩ := guard_bind.mp h
  cases h
  simp only [Bool.and_eq_true, Bool.or_eq_true, decide_eq_true_eq] at hf hc
  exact ⟨hf.2, hc, hq, hf.1⟩

/-- The levels from an element op up to the op `top` that is fused. `front` are the ops from the
first key up to the last one, `fin` those that work on the last element. -/
inductive Ladder (a : Arena) (ct : Int) :
    Action → RecId → RecId → List PathLevel → List RecId → List RecId → RecId → Prop where
  | last {act : Action} {s elem : RecId} {l : PathLevel} (hl : Level a ct act s elem l)
      (hc : (a.node elem).code ≠ .null) : Ladder a ct act s elem [l] [l.key] [elem] elem
  /-- The element is tested or deleted. -/
  | user {act : Action} {s elem top : RecId} {l : PathLevel} (hl : Level a ct act s elem l)
      (hc : (a.node elem).code = .null) (hu : elemUser? a elem = some top) :
      Ladder a ct act s elem [l] [l.key] [elem, top] top
  | more {act act' : Action} {s elem r next top : RecId} {l : PathLevel} {ls : List PathLevel}
      {front fin : List RecId} (hl : Level a ct act s elem l) (hc : (a.node elem).code ≠ .null)
      (hn : nextLevel? a elem = some (act', r, next)) (h : Ladder a ct act' r next ls front fin top) :
      Ladder a ct act s elem (l :: ls) (l.key :: elem :: r :: front) fin top

theorem Ladder.ne_nil {ct : Int} {act : Action} {s elem top : RecId} {ls : List PathLevel}
    {front fin : List RecId} (h : Ladder a ct act s elem ls front fin top) : ls ≠ [] := by
  cases h <;> exact List.cons_ne_nil _ _

theorem looks_scanLevels (a : Arena) (ct : Int) (fuel : Nat) (found : Option PathMatch) (act : Action)
    (s elem : RecId) : Looks (scanLevels a ct fuel found act s elem) := by
  induction fuel generalizing found act s elem with
  | zero => exact looks_pure _
  | succ fuel ih =>
    refine (looks_pathLevel a act s elem ct).bind fun r => ?_
    match r with
    | .error why => exact looks_pure _
    | .ok none => exact looks_pure _
    | .ok (some l) =>
      refine .ite ?_ ?_
      · cases elemUser? a elem <;> exact looks_pure _
      · cases hn : nextLevel? a elem with
        | none => exact looks_pure _
        | some p => exact ih _ _ _ _

/-- A scan finds nothing new, or a ladder above what was found before. -/
theorem ladder_of_scan {ct : Int} {fuel : Nat} {found res : Option PathMatch} {act : Action}
    {s elem : RecId} (h : scanLevels a ct fuel found act s elem ps a = .ok (.ok res, ps') b) :
    res = found ∨ ∃ mt ls front fin, res = some mt ∧
      mt.levels = (found.map (·.levels)).getD [] ++ ls ∧
      mt.keys = (found.map (·.keys)).getD 0 + (ls.flatMap (·.keyText)).length ∧
      Ladder a ct act s elem ls front fin mt.top := by
  induction fuel generalizing found act s elem with
  | zero =>
    cases h
    exact Or.inl rfl
  | succ fuel ih =>
    obtain ⟨r, qs, c, hr, h⟩ := bind_eq_ok.mp h
    obtain ⟨hqs, hac⟩ := (looks_pathLevel a act s elem ct).of_ok hr
    rw [hqs, hac] at hr h
    rcases r with why | l?
    · cases h
    cases l? with
    | none =>
      cases h
      exact Or.inl rfl
    | some l =>
      have hl := level_of_ok hr
      dsimp only at h
      by_cases hc : (a.node elem).code = .null
      · rw [if_pos hc] at h
        cases hu : elemUser? a elem with
        | none =>
          rw [hu] at h
          cases h
          exact Or.inl rfl
        | some top =>
          rw [hu] at h
          cases h
          exact Or.inr ⟨_, [l], _, _, rfl, rfl, by simp, .user hl hc hu⟩
      · rw [if_neg hc] at h
        cases hn : nextLevel? a elem with
        | none =>
          rw [hn] at h
          cases h
          exact Or.inr ⟨_, [l], _, _, rfl, rfl, by simp, .last hl hc⟩
        | some p =>
          obtain ⟨act', r, next⟩ := p
          rw [hn] at h
          rcases ih h with rfl | ⟨mt, ls, front, fin, rfl, hls, hkeys, hlad⟩
          · exact Or.inr ⟨_, [l], _, _, rfl, rfl, by simp, .last hl hc⟩
          · refine Or.inr ⟨mt, l :: ls, _, _, rfl, ?_, ?_, .more hl hc hn hlad⟩
            · rw [hls]
              simp
            · rw [hkeys]
              simp [Nat.add_assoc]

theorem chain_of_scan {s : RecId} {mt : PathMatch} (h : scanPath s ps a = .ok (.ok (some mt), ps') b) :
    ps' = ps ∧ b = a ∧ mt.keys = (mt.levels.flatMap (·.keyText)).length ∧
      ∃ act r elem front fin, pathStart? a s = some (act, r, elem) ∧
        Ladder a (a.node r).targ act r elem mt.levels front fin mt.top := by
  obtain ⟨c, qs, a', hget, h⟩ := bind_eq_ok.mp h
  cases hget
  cases hstart : pathStart? a s with
  | none =>
    rw [hstart] at h
    cases h
  | some p =>
    obtain ⟨act, r, elem⟩ := p
    rw [hstart] at h
    obtain ⟨hps, hb⟩ := (looks_scanLevels a _ _ _ _ _ _).of_ok h
    rw [hps, hb] at h
    rcases ladder_of_scan h with hnone | ⟨mt', ls, front, fin, hmt, hls, hkeys, hlad⟩
    · cases hnone
    · obtain rfl := Option.some.inj hmt
      obtain rfl : mt.levels = ls := hls
      exact ⟨hps, hb, by simpa using hkeys, act, r, elem, front, fin, rfl, hlad⟩

/-- The op that is fused lies on the way up from the start of the chain, and accesses an element. -/
theorem Ladder.stem {ct : Int} {act : Action} {s q elem top : RecId} {ls : List PathLevel}
    {front fin : List RecId} (h : Ladder a ct act s elem ls front fin top) (he : Stem a q elem) :
    Stem a q top ∧ (a.node top).code ∈ [.aelem, .aelemU, .helem, .existsElem, .deleteElem] := by
  induction h with
  | last hl hc =>
    refine ⟨he, ?_⟩
    have hel := hl.is_elem
    simp only [isElemOf, hc, if_false] at hel
    split at hel
    · simp [beq_iff_eq.mp hel]
    · rw [Bool.or_eq_true, beq_iff_eq, beq_iff_eq] at hel
      rcases hel with h | h <;> simp [h]
  | user hl hc hu =>
    obtain ⟨-, hcode, hkid⟩ := user_of_some hu
    exact ⟨.up he hkid, by rcases hcode with h | h <;> simp [h]⟩
  | more hl hc hn _ ih =>
    obtain ⟨⟨_, -, hd, -⟩, hkid⟩ := next_of_some hn
    exact ih (.up (.up he hd.kid) hkid)

theorem Start.base {s r : RecId} {act : Action} {ops : List RecId} (h : Start a s act r ops) :
    act ∈ Action.bases := by
  cases h with
  | pad hash _ _ _ => cases hash <;> decide
  | glob hash _ _ => cases hash <;> decide
  | ref hash _ _ _ _ => cases hash <;> decide

theorem base_of_next {elem r next : RecId} {act : Action}
    (h : nextLevel? a elem = some (act, r, next)) : act ∈ Action.bases := by
  obtain ⟨⟨hash, rfl, -, -⟩, -⟩ := next_of_some h
  cases hash <;> decide

/-- The ops of a chain follow each other. -/
def Linked (a : Arena) : List RecId → Prop := List.IsChain fun r q => (a.node r).next = some q

theorem Ladder.linked {ct : Int} {act : Action} {s elem top : RecId} {ls : List PathLevel}
    {front fin : List RecId} (h : Ladder a ct act s elem ls front fin top) :
    Linked a (s :: (front ++ fin)) ∧ (front ++ fin).getLast? = some top := by
  induction h with
  | last hl _ => exact ⟨.cons_cons hl.next (.cons_cons hl.next_key (.singleton _)), rfl⟩
  | user hl _ hu =>
    have hn := (user_of_some hu).1
    exact ⟨.cons_cons hl.next (.cons_cons hl.next_key (.cons_cons hn (.singleton _))), rfl⟩
  | more hl _ hn _ ih =>
    obtain ⟨⟨hash, -, hd, -⟩, -⟩ := next_of_some hn
    refine ⟨.cons_cons hl.next (.cons_cons hl.next_key (.cons_cons hd.next ih.1)), ?_⟩
    simp only [List.cons_append, List.getLast?_cons, ih.2, Option.getD_some]

theorem Start.linked {s r : RecId} {act : Action} {head rest : List RecId} (h : Start a s act r head)
    (hr : Linked a (r :: rest)) : Linked a (head ++ rest) ∧ (head ++ rest).head? = some s := by
  cases h with
  | pad _ _ _ _ => exact ⟨hr, rfl⟩
  | glob _ _ hd => exact ⟨.cons_cons hd.next hr, rfl⟩
  | ref _ _ _ _ hd => exact ⟨.cons_cons hd.next hr, rfl⟩

end Peep

end OpTree
