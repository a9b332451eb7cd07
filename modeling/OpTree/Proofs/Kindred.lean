import OpTree.Proofs.Linearized

/-!
# What edits leave of an op

Which of the data of ops an edit may change: most edits change neither what an op is nor which second successor it
has, and those that do keep an arena tidy.
-/

namespace OpTree

set_option autoImplicit false

namespace Node

/-- Only branching ops, live or neutralized, have a second successor, and no op has been visited. -/
structure Tidy (n : Node) : Prop where
  other : n.other = none ∨ n.opClass = .logop
  unmarked : n.processed = false

theorem tidy_blank {n : Node} (ho : n.other = none) (hm : n.processed = false) : n.Tidy := ⟨Or.inl ho, hm⟩

/-- What an op is, apart from its data and its links but for the second successor. -/
structure Core where
  code : Opcode
  ex : Opcode
  other : Option RecId
  processed : Bool
  id : Nat

def core (n : Node) : Core := ⟨n.code, n.ex, n.other, n.processed, n.id⟩

theorem opClass_of_core {n n' : Node} (h : n'.core = n.core) : n'.opClass = n.opClass := by
  have hc : n'.code = n.code := congrArg Core.code h
  have hx : n'.ex = n.ex := congrArg Core.ex h
  rw [opClass, opClass, isEx, isEx, hc, hx]

theorem Tidy.of_core {n n' : Node} (hn : n.Tidy) (h : n'.core = n.core) : n'.Tidy := by
  have hother : n'.other = n.other := congrArg Core.other h
  refine ⟨?_, (congrArg Core.processed h).trans hn.unmarked⟩
  rw [hother, opClass_of_core h]
  exact hn.other

end Node

namespace Arena

variable {a b c : Arena}

def Clean (a : Arena) : Prop := ∀ r, (a.node r).Tidy

structure Kindred (a b : Arena) : Prop where
  rest : b = { a with recs := b.recs }
  size : b.recs.size = a.recs.size
  core : ∀ r, (b.node r).core = (a.node r).core

theorem Kindred.refl (a : Arena) : Kindred a a := ⟨rfl, rfl, fun _ => rfl⟩

theorem Kindred.trans (h : Kindred a b) (h' : Kindred b c) : Kindred a c where
  rest := by rw [h'.rest, h.rest]
  size := h'.size.trans h.size
  core r := (h'.core r).trans (h.core r)

theorem Kindred.code (h : Kindred a b) (r : RecId) : (b.node r).code = (a.node r).code :=
  congrArg Node.Core.code (h.core r)

theorem Kindred.processed (h : Kindred a b) (r : RecId) : (b.node r).processed = (a.node r).processed :=
  congrArg Node.Core.processed (h.core r)

theorem Kindred.id (h : Kindred a b) (r : RecId) : (b.node r).id = (a.node r).id :=
  congrArg Node.Core.id (h.core r)

theorem Kindred.group (h : Kindred a b) : b.group? = a.group? := by rw [h.rest]

/-- All live ops but `new` were there before, with the same ids. -/
structure Inherits (a b : Arena) (new : RecId → Prop) : Prop where
  seq : b.seq = a.seq
  pad : b.pad = a.pad
  tune : b.tune = a.tune
  live : ∀ r, ¬ new r → r < b.recs.size → (b.node r).code ≠ .freed →
    r < a.recs.size ∧ (a.node r).code ≠ .freed ∧ (b.node r).id = (a.node r).id

theorem Kindred.inherits (h : Kindred a b) (new : RecId → Prop) : Inherits a b new where
  seq := by rw [h.rest]
  pad := by rw [h.rest]
  tune := by rw [h.rest]
  live r _ hr hc := ⟨h.size ▸ hr, h.code r ▸ hc, h.id r⟩

structure Numbered (a : Arena) (p : RecId → Prop) : Prop where
  le : ∀ r, p r → r < a.recs.size → (a.node r).code ≠ .freed → (a.node r).id ≤ a.seq
  inj : ∀ r q, p r → p q → r < a.recs.size → q < a.recs.size → (a.node r).code ≠ .freed →
    (a.node q).code ≠ .freed → (a.node r).id = (a.node q).id → r = q

theorem Numbered.inherits {new : RecId → Prop} (h : Numbered a fun _ => True) (hb : Inherits a b new) :
    Numbered b fun r => ¬ new r where
  le r hr hlt hc := by
    obtain ⟨hlt, hc, hid⟩ := hb.live r hr hlt hc
    rw [hid, hb.seq]
    exact h.le r trivial hlt hc
  inj r q hr hq hrl hql hrc hqc he := by
    obtain ⟨hrl, hrc, hrid⟩ := hb.live r hr hrl hrc
    obtain ⟨hql, hqc, hqid⟩ := hb.live q hq hql hqc
    exact h.inj r q trivial trivial hrl hql hrc hqc (hrid ▸ hqid ▸ he)

/-- The group of a unit that is being built is held by the unit alone. -/
def Held (a : Arena) : Prop := ∃ g, a.group? = some g ∧ g.refs = 1 ∧ g.released = false

/-- What holds of every arena that is being built in. -/
structure Tidy (a : Arena) : Prop where
  clean : a.Clean
  numbered : a.Numbered fun _ => True
  held : a.Held

/-- Tidy still, with all its variables and the same tuning. -/
structure Tidied (a b : Arena) : Prop where
  tidy : b.Tidy
  pad : a.pad.size ≤ b.pad.size
  tune : b.tune = a.tune

theorem Tidied.trans (h : Tidied a b) (h' : Tidied b c) : Tidied a c :=
  ⟨h'.tidy, Nat.le_trans h.pad h'.pad, h'.tune.trans h.tune⟩

theorem Tidy.inherits (h : a.Tidy) (hc : b.Clean) (hb : Inherits a b fun _ => False) (hg : b.Held) : Tidied a b where
  tidy := ⟨hc, by simpa using h.numbered.inherits hb, hg⟩
  pad := Nat.le_of_eq (congrArg Pad.size hb.pad.symm)
  tune := hb.tune

theorem Clean.kindred (h : a.Clean) (hb : Kindred a b) : b.Clean := fun r => (h r).of_core (hb.core r)

theorem Tidy.kindred (h : a.Tidy) (hb : Kindred a b) : Tidied a b :=
  h.inherits (h.clean.kindred hb) (hb.inherits _) (by
    obtain ⟨g, hg, hr⟩ := h.held
    exact ⟨g, hb.group.trans hg, hr⟩)

end Arena

namespace TreeM

variable {α β : Type}

/-- Does not change what an op is or which second successor it has. -/
def Steady (x : TreeM α) : Prop := ∀ ⦃a b : Arena⦄ ⦃v : α⦄, x a = .ok v b → a.Kindred b

theorem steady_of_eq {x : TreeM α} (h : ∀ ⦃a b : Arena⦄ ⦃v : α⦄, x a = .ok v b → b = a) : Steady x := by
  intro a b v hok
  rw [h hok]
  exact .refl a

theorem steady_pure (v : α) : Steady (pure v) := steady_of_eq fun _ _ _ h => (pure_eq_ok.mp h).2.symm

theorem steady_throw (e : Failure) : Steady (throw e : TreeM α) :=
  steady_of_eq fun _ _ _ h => absurd h throw_ne_ok

theorem steady_get : Steady (get : TreeM Arena) := steady_of_eq fun _ _ _ h => by cases h; rfl

theorem steady_node (r : RecId) : Steady (node r) := steady_of_eq fun _ _ _ h => by cases h; rfl

theorem steady_kids (r : RecId) : Steady (kids r) := steady_of_eq fun _ _ _ h => by cases h; rfl

theorem steady_kid? (r : RecId) (i : Int) : Steady (kid? r i) := steady_of_eq fun _ _ _ h => by cases h; rfl

theorem steady_need (r : Option RecId) : Steady (need r) := by
  cases r with
  | none => exact steady_throw _
  | some r => exact steady_pure r

theorem Steady.bind {x : TreeM α} {f : α → TreeM β} (hx : Steady x) (hf : ∀ v, Steady (f v)) :
    Steady (x >>= f) := by
  intro a b v hok
  obtain ⟨u, c, hu, hok⟩ := bind_eq_ok.mp hok
  exact (hx hu).trans (hf u hok)

theorem steady_ite {p : Prop} [Decidable p] {x y : TreeM α} (hx : Steady x) (hy : Steady y) :
    Steady (if p then x else y) := by
  split
  · exact hx
  · exact hy

end TreeM

namespace Arena

theorem inherits_update {a : Arena} {r : RecId} {f : Node → Node} {new : RecId → Prop}
    (hf : ∀ n : Node, (f n).code = n.code ∧ (f n).id = n.id) : Inherits a (a.update r f) new where
  seq := rfl
  pad := rfl
  tune := rfl
  live q _ hlt hl := by
    rw [size_update] at hlt
    rcases node_update_cases (a := a) (r := r) (f := f) q with he | ⟨-, he⟩ <;> rw [he] at hl ⊢
    · exact ⟨hlt, hl, rfl⟩
    · exact ⟨hlt, (hf _).1 ▸ hl, (hf _).2⟩

theorem Clean.update {a : Arena} {r : RecId} {f : Node → Node} (h : a.Clean)
    (hf : ∀ n : Node, n.Tidy → (f n).Tidy) : (a.update r f).Clean := by
  intro q
  rcases node_update_cases (a := a) (r := r) (f := f) q with hq | ⟨-, hq⟩
  · rw [hq]
    exact h q
  · rw [hq]
    exact hf _ (h q)

end Arena

namespace TreeM

variable {α β : Type}

theorem steady_update {r : RecId} {f : Node → Node} (h : ∀ n, (f n).core = n.core) : Steady (update r f) := by
  intro a b v hok
  rw [update_apply] at hok
  cases hok
  refine ⟨rfl, Arena.size_update .., fun q => ?_⟩
  rcases Arena.node_update_cases (a := a) (r := r) (f := f) q with hq | ⟨-, hq⟩
  · rw [hq]
  · rw [hq]
    exact h _

theorem steady_setNext (r : RecId) (q : Option RecId) : Steady (setNext r q) :=
  steady_update fun _ => rfl

theorem steady_float (r : RecId) (q : Option RecId) : Steady (float r q) :=
  steady_update fun _ => rfl

/-- Cutting and joining kid lists is steady. The places where the branches of `splice` meet are taken
from the last one to the first. -/
theorem steady_splice (parent start : Option RecId) (del : Int) (insert : Option RecId) :
    Steady (splice parent start del insert) := by
  have hsib : ∀ (r : RecId) (s : Sib), Steady (update r fun n => { n with sib := s }) :=
    fun r s => steady_update fun _ => rfl
  have hlast : ∀ (r : RecId) (l : Option RecId), Steady (update r fun n => { n with last := l }) :=
    fun r l => steady_update fun _ => rfl
  unfold splice
  extract_lets -underBinder counted
  have hcounted : ∀ u, Steady (counted u) := by
    intro u
    unfold counted
    extract_lets -underBinder found
    have hfound : ∀ first, Steady (found first) := by
      intro first
      unfold found
      extract_lets -underBinder lastDel cut
      have hcut : ∀ p, Steady (cut p) := by
        intro p
        unfold cut
        split
        extract_lets -underBinder joined
        have hjoined : ∀ p, Steady (joined p) := by
          intro p
          unfold joined
          split
          extract_lets -underBinder placed
          have hplaced : ∀ u, Steady (placed u) := by
            intro u
            unfold placed
            extract_lets -underBinder done
            refine steady_ite ?_ (steady_pure _)
            split
            · exact steady_throw _
            · refine (steady_node _).bind fun n => ?_
              extract_lets -underBinder tracked
              have htracked : ∀ u, Steady (tracked u) := by
                intro u
                unfold tracked
                split
                · exact (hsib _ _).bind fun _ => steady_pure _
                · exact steady_pure _
              exact steady_ite ((hlast _ _).bind htracked) (htracked ())
          split
          · refine (hsib _ _).bind fun _ => steady_ite ?_ (hplaced ())
            split
            · exact (steady_throw _).bind hplaced
            · exact (hsib _ _).bind hplaced
          · refine (steady_need _).bind fun _ => Steady.bind ?_ hplaced
            exact steady_update fun _ => rfl
        split
        · exact steady_get.bind fun _ => (hsib _ _).bind fun _ => (steady_pure _).bind hjoined
        · exact (steady_pure _).bind hjoined
      clear_value lastDel
      cases lastDel with
      | some f => exact steady_get.bind fun _ => (hsib _ _).bind fun _ => (steady_pure _).bind hcut
      | none => exact (steady_pure _).bind hcut
    split
    · exact (steady_node _).bind fun _ => (steady_pure _).bind hfound
    · exact (steady_throw _).bind hfound
    · exact (steady_node _).bind fun _ => (steady_pure _).bind hfound
  exact steady_ite ((steady_throw _).bind hcounted) (hcounted ())

theorem steady_append (p : RecId) (k : Option RecId) : Steady (append p k) :=
  steady_get.bind fun _ => (steady_splice ..).bind fun _ => steady_pure _

theorem steady_linkKids (r prev : RecId) (ks : List RecId) : Steady (linkKids r prev ks) := by
  induction ks generalizing prev with
  | nil => exact steady_setNext _ _
  | cons k ks ih => exact (steady_node k).bind fun _ => (steady_setNext _ _).bind fun _ => ih k

theorem steady_link (r : RecId) : Steady (link r) := by
  refine (steady_kids r).bind fun ks => ?_
  cases ks with
  | nil => exact steady_float _ _
  | cons k ks =>
    exact (steady_node k).bind fun _ => (steady_float _ _).bind fun _ => steady_linkKids ..

theorem steady_linearizeFrom (root : RecId) (fuel : Nat) (o : RecId) :
    Steady (linearizeFrom root fuel o) := by
  induction fuel generalizing o with
  | zero => exact steady_throw _
  | succ fuel ih =>
    unfold linearizeFrom
    refine (steady_node o).bind fun n => ?_
    split
    · exact ih _
    · extract_lets -underBinder landed
      have hlanded : ∀ u, Steady (landed u) := by
        intro u
        refine steady_ite ((steady_node o).bind fun _ => steady_pure _) ?_
        refine steady_ite ((steady_need _).bind fun _ => ih _) ?_
        split
        · exact (steady_node root).bind fun _ => steady_throw _
        · refine (steady_node _).bind fun m => ?_
          have hlink : Steady (do link ‹RecId›; linearizeFrom root fuel ‹RecId›) :=
            (steady_link _).bind fun _ => ih _
          exact steady_ite ((steady_throw _).bind fun _ => hlink) hlink
      exact steady_ite ((steady_float _ _).bind hlanded) (hlanded ())

theorem steady_linearize (root : RecId) : Steady (linearize root) :=
  steady_get.bind fun _ => steady_linearizeFrom ..

def Tidies (x : TreeM α) : Prop := ∀ ⦃a b : Arena⦄ ⦃v : α⦄, a.Tidy → x a = .ok v b → a.Tidied b

theorem Steady.tidies {x : TreeM α} (h : Steady x) : Tidies x := fun _ _ _ ha hok => ha.kindred (h hok)

theorem tidies_throw (e : Failure) : Tidies (throw e : TreeM α) := (steady_throw e).tidies

theorem Tidies.bind {x : TreeM α} {f : α → TreeM β} (hx : Tidies x) (hf : ∀ v, Tidies (f v)) :
    Tidies (x >>= f) := by
  intro a b v ha hok
  obtain ⟨u, c, hu, hok⟩ := bind_eq_ok.mp hok
  have hc := hx ha hu
  exact hc.trans (hf u hc.tidy hok)

theorem tidies_ite {p : Prop} [Decidable p] {x y : TreeM α} (hx : Tidies x) (hy : Tidies y) :
    Tidies (if p then x else y) := by
  split
  · exact hx
  · exact hy

theorem tidies_forM {l : List α} {f : α → TreeM Unit} (h : ∀ x, Tidies (f x)) : Tidies (l.forM f) := by
  induction l with
  | nil => exact (steady_pure ()).tidies
  | cons x l ih => exact (h x).bind fun _ => ih

theorem tidies_update {r : RecId} {f : Node → Node} (h : ∀ n : Node, n.Tidy → (f n).Tidy)
    (hl : ∀ n : Node, (f n).code ≠ .freed → n.code ≠ .freed ∧ (f n).id = n.id) : Tidies (update r f) := by
  intro a b v ha hok
  rw [update_apply] at hok
  cases hok
  refine ha.inherits (ha.clean.update h) ⟨rfl, rfl, rfl, fun q _ hq hc => ?_⟩ ha.held
  rw [Arena.size_update] at hq
  rcases Arena.node_update_cases (a := a) (r := r) (f := f) q with he | ⟨-, he⟩ <;> rw [he] at hc ⊢
  · exact ⟨hq, hc, rfl⟩
  · exact ⟨hq, hl _ hc⟩

theorem tidies_data {r : RecId} {f : Node → Node} (h : ∀ n, (f n).core = n.core) : Tidies (update r f) :=
  (steady_update h).tidies

end TreeM

namespace Node

theorem opClass_neutralized (n : Node) : n.neutralized.opClass = n.opClass := by
  unfold neutralized
  by_cases h : n.code = .null
  · simp [h]
  · simp [opClass, isEx, h]

end Node

namespace TreeM

variable {α β : Type}

theorem neutralize_tidy {a b : Arena} {r : RecId} {u : Unit} (ha : a.Tidy) (hr : (a.node r).code ≠ .freed)
    (hok : neutralize r a = .ok u b) : a.Tidied b := by
  cases hok
  refine ha.inherits (ha.clean.update fun n hn => ?_) ⟨rfl, rfl, rfl, fun q _ hq hc => ?_⟩ ha.held
  · have hsame : n.neutralized.other = n.other ∧ n.neutralized.processed = n.processed := by
      unfold Node.neutralized
      split <;> exact ⟨rfl, rfl⟩
    obtain ⟨hother, hmark⟩ := hsame
    refine ⟨?_, hmark.trans hn.unmarked⟩
    rw [Node.opClass_neutralized, hother]
    exact hn.other
  · rw [Arena.size_update] at hq
    rcases Arena.node_update_cases (a := a) (r := r) (f := Node.neutralized) q with he | ⟨rfl, he⟩ <;>
      rw [he] at hc ⊢
    · exact ⟨hq, hc, rfl⟩
    · refine ⟨hq, hr, ?_⟩
      unfold Node.neutralized
      split <;> rfl

end TreeM

end OpTree
