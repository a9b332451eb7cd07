import OpTree.Proofs.Frames
import OpTree.Proofs.Remains
import OpTree.Proofs.Walks

/-!
# Wiring

What stays true of the links of execution while the optimizer leads them past ops: a tree is entered
at its start, unless control passes through the start anyway. So the ops inside of a tree with a solid
start are reached by way of that start only. And every link leads to an op that has the same loops around it.
-/

namespace OpTree

set_option autoImplicit false

namespace Node

def passes (n : Node) : Bool :=
  match n.code with
  | .null | .scalar | .lineseq | .scope | .and | .or | .dor => true
  | _ => false

theorem passes_of_transparent {n : Node} (h : n.transparent = true) : n.passes = true := by
  unfold transparent at h
  unfold passes
  split at h <;> simp_all

theorem passes_neutralized (n : Node) : n.neutralized.passes = true := by
  rw [passes, neutralized_code]

theorem turn_of_passes {n : Node} (h : n.passes = true) : n.turn = .stays := by
  unfold passes at h
  refine turn_of_ne (fun hc => ?_) fun hc => ?_ <;> rw [hc] at h <;> cases h

theorem not_passes_of_leaf {n : Node} (h : n.code.isLeaf = true) : n.passes = false := by
  unfold passes
  split <;> simp_all [Opcode.isLeaf]

/-- What the optimizer may make of an op where it stands. -/
structure Softens (n n' : Node) : Prop where
  first : n'.first = n.first
  sib : n'.sib = n.sib
  next : n'.next = n.next
  other : n'.other = n.other
  processed : n'.processed = n.processed
  last : n'.opClass.tracksLast = true → n.opClass.tracksLast = true ∧ n'.last = n.last
  live : n.code ≠ .freed → n'.code ≠ .freed
  passes : n.passes = true → n'.passes = true
  firm : n'.Firm → n.Firm
  lineseq : n'.code ≠ .lineseq → n.code ≠ .lineseq
  leaf : n'.code.isLeaf = true → n.code.isLeaf = true
  logop : n'.opClass = .logop ↔ n.opClass = .logop
  auxop : n.opClass = .auxop → n'.opClass = .auxop
  leavesub : n.code = .leavesub → n'.code = .leavesub
  nextstate : n.code = .nextstate → n'.code = .nextstate
  shape : ∀ k, n.Shape k → n'.Shape k
  id : n'.id = n.id
  turn : n'.turn = n.turn
  recalls : n.Recalls n'
  eases : n.Eases n'

theorem Softens.refl (n : Node) : n.Softens n :=
  ⟨rfl, rfl, rfl, rfl, rfl, fun h => ⟨h, rfl⟩, fun h => h, fun h => h, fun h => h, fun h => h,
    fun h => h, Iff.rfl, fun h => h, fun h => h, fun h => h, fun _ h => h, rfl, rfl, .refl n, eases_of_path rfl rfl⟩

theorem firm_plain {n : Node} : n.plain.Firm ↔ n.Firm :=
  ⟨fun h => ⟨h.null, h.lineseq, h.enteriter, h.logop⟩, fun h => ⟨h.null, h.lineseq, h.enteriter, h.logop⟩⟩

end Node

namespace Tree

theorem mem_subtrees_of_root {t u w : Tree} (hn : t.recs.Nodup) (hu : u ∈ t.subtrees) (hw : w ∈ t.subtrees)
    (h : w.root ∈ u.recs) : w ∈ u.subtrees := by
  obtain ⟨x, hx, hxw⟩ := List.mem_map.mp h
  obtain rfl := eq_of_root_eq hn (subtrees_trans hu hx) hw hxw
  exact hx

theorem root_notMem_below {u w : Tree} (hn : u.recs.Nodup) (hw : w ∈ u.subtrees) (hne : w.root ≠ u.root) :
    u.root ∉ w.recs := by
  obtain ⟨r, o, ks⟩ := u
  rcases mem_subtrees_mk.mp hw with rfl | ⟨k, hk, hwk⟩
  · exact absurd rfl hne
  · exact fun h => root_notMem_kids hn (List.mem_flatMap.mpr ⟨k, hk, recs_subset hwk h⟩)

def reread (a : Arena) (t : Tree) : Tree := t.mapOps fun r _ => (a.node r).plain

end Tree

namespace Arena

open OpTree.Tree

variable {S : Course} {a b : Arena} {t : Tree}

/-- An op may come after `p?`, or come first: it is a live op of the tree, every tree around it
that does not hold `p?` inside is entered at its start or has a start that control passes, and the same
loops are open. -/
structure Lands (S : Course) (a : Arena) (t : Tree) (p? : Option RecId) (z : RecId) : Prop where
  mem : z ∈ t.recs
  live : S z
  enters : ∀ u ∈ t.subtrees, u.op.Firm → z ∈ u.recs →
    z = u.start ∨ (a.node u.start).passes = true ∨ ∃ p, p? = some p ∧ p ∈ u.recs ∧ p ≠ u.root
  level : p?.elim [] S.out = S.into z

theorem Lands.trans {p? : Option RecId} {x z : RecId} (h : Lands S a t p? x)
    (hx : (a.node x).passes = true) (hflat : S.out x = S.into x) (h' : Lands S a t (some x) z) :
    Lands S a t p? z := by
  refine ⟨h'.mem, h'.live, fun u hu hf hz => ?_, (h.level.trans hflat.symm).trans h'.level⟩
  rcases h'.enters u hu hf hz with hs | hs | ⟨p, hp, hpu, -⟩
  · exact Or.inl hs
  · exact Or.inr (Or.inl hs)
  · obtain rfl := Option.some.inj hp
    rcases h.enters u hu hf hpu with hs | hs
    · exact Or.inr (Or.inl (hs ▸ hx))
    · exact Or.inr hs

theorem Lands.below {p l z : RecId} {w : Tree} (h : Lands S a t (some p) z) (hn : t.recs.Nodup)
    (hw : w ∈ t.subtrees) (hp : w.root = p) (hl : l ∈ w.recs) (hlevel : S.out l = S.out p) :
    Lands S a t (some l) z := by
  refine ⟨h.mem, h.live, fun u hu hf hz => ?_, hlevel.trans h.level⟩
  rcases h.enters u hu hf hz with hs | hs | ⟨q, hq, hqu, hne⟩
  · exact Or.inl hs
  · exact Or.inr (Or.inl hs)
  · obtain rfl := Option.some.inj hq
    have hwu := mem_subtrees_of_root hn hu hw (hp ▸ hqu)
    refine Or.inr (Or.inr ⟨l, rfl, recs_subset hwu hl, ?_⟩)
    rintro rfl
    exact root_notMem_below (nodup_subtree hn hu) hwu (hp ▸ hne) hl

theorem Lands.congr {p? : Option RecId} {z : RecId} (h : Lands S a t p? z)
    (hp : ∀ r ∈ t.recs, (a.node r).passes = true → (b.node r).passes = true) : Lands S b t p? z := by
  refine ⟨h.mem, h.live, fun u hu hf hz => ?_, h.level⟩
  rcases h.enters u hu hf hz with hs | hs | hs
  · exact Or.inl hs
  · exact Or.inr (Or.inl (hp _ (recs_subset hu u.start_mem_recs) hs))
  · exact Or.inr (Or.inr hs)

theorem Held.of_local {s : List RecId} (h : a.Held) (hb : Local a b s) : b.Held := by
  obtain ⟨g, hg, hr⟩ := h
  exact ⟨g, by rw [hb.rest]; exact hg, hr⟩

/-- The links of execution of a tree in the hands of the optimizer. `S` holds of the ops that may be
executed. -/
structure Wired (S : Course) (a : Arena) (t : Tree) : Prop where
  forest : a.Forest [t]
  other : ∀ r ∈ t.recs, (a.node r).other = none ∨ (a.node r).opClass = .logop
  leaf : ∀ u ∈ t.subtrees, u.op.code.isLeaf = true → u.kids = []
  live : ∀ u ∈ t.subtrees, u.op.code ≠ .lineseq → S u.root
  links : ∀ p ∈ t.recs, S p → ∀ z, a.Link p z → Lands S a t (some p) z
  /-- No op of a tree with a solid start is visited before that start. -/
  marks : ∀ u ∈ t.subtrees, u.op.Firm → ∀ p ∈ u.recs, (a.node p).processed = true →
    (a.node u.start).processed = true ∨ (a.node u.start).passes = true
  unmarked : ∀ r ∉ t.recs, (a.node r).processed = false
  leavesub : t.op.code = .leavesub
  /-- Only the end of the unit leads nowhere. -/
  next : ∀ r ∈ t.recs, S r → r ≠ t.root → (a.node r).next ≠ none
  arm : ∀ r ∈ t.recs, (a.node r).opClass = .logop → (a.node r).other ≠ none
  shaped : t.Shaped
  id_inj : ∀ r ∈ t.recs, ∀ q ∈ t.recs, (a.node r).id = (a.node q).id → r = q
  held : a.Held
  nested : t.Nested
  leveled : t.Leveled S.into S.out
  top : S.out t.root = []

theorem Wired.holds (h : Wired S a t) : a.Holds t := h.forest.holds t (by simp)

theorem Wired.nodup (h : Wired S a t) : t.recs.Nodup := by
  have hn := h.forest.nodup
  simpa using hn

theorem Wired.lt (h : Wired S a t) {r : RecId} (hr : r ∈ t.recs) : r < a.recs.size := h.holds.lt hr

/-- What is read at the root is the tree. -/
theorem Wired.tree_eq (h : Wired S a t) : a.tree t.root = t := h.holds.tree_eq h.nodup

theorem Wired.subtree (h : Wired S a t) {r : RecId} (hr : r ∈ t.recs) :
    ∃ u ∈ t.subtrees, u.root = r ∧ (a.node r).plain = u.op := by
  obtain ⟨u, hu, rfl⟩ := List.mem_map.mp hr
  exact ⟨u, hu, rfl, (h.holds.subtree hu).fits.op⟩

theorem Wired.live_of (h : Wired S a t) {r : RecId} (hr : r ∈ t.recs) (hc : (a.node r).code ≠ .lineseq) :
    S r := by
  obtain ⟨u, hu, rfl, hop⟩ := h.subtree hr
  refine h.live u hu ?_
  rw [← hop]
  exact hc

theorem Wired.flat (h : Wired S a t) {r : RecId} (hr : r ∈ t.recs) (hs : (a.node r).turn = .stays) :
    S.out r = S.into r := by
  obtain ⟨u, hu, rfl, hop⟩ := h.subtree hr
  refine (h.leveled.subtree hu).flat ?_
  rw [← hop, Node.turn_plain, hs]

theorem Wired.flat_of_passes (h : Wired S a t) {r : RecId} (hr : r ∈ t.recs) (hp : (a.node r).passes = true) :
    S.out r = S.into r := h.flat hr (Node.turn_of_passes hp)

theorem Wired.code_root (h : Wired S a t) : (a.node t.root).code = .leavesub := by
  rw [← Node.plain_code, h.holds.fits.op, h.leavesub]

theorem Wired.next_of_passes (h : Wired S a t) {r : RecId} (hr : r ∈ t.recs) (hS : S r)
    (hp : (a.node r).passes = true) : (a.node r).next ≠ none := by
  refine h.next r hr hS ?_
  rintro rfl
  rw [Node.passes, h.code_root] at hp
  cases hp

theorem wired_of_flow (hf : a.Forest [t]) (hflow : a.Flow t none) (ht : t.Proper) (hshaped : t.Shaped)
    (hc : t.op.code = .leavesub) (htidy : a.Tidy) (hn : t.recs.Nodup) (hb : t.Balanced) (hs : t.slots.Nodup) :
    Wired (t.course hn hb hs) a t ∧ Lands (t.course hn hb hs) a t none t.start := by
  have hh : a.Holds t := hf.holds t (by simp)
  have hlevel := leveled_course hn hb hs
  have htop : (t.course hn hb hs).out t.root = [] := congrArg Prod.snd (t.frames_root [])
  refine ⟨{ forest := hf
            other := fun r _ => (htidy.clean r).other
            leaf := ?_
            live := fun u hu => live_of_code hn hu
            links := ?_
            marks := ?_
            unmarked := fun r _ => (htidy.clean r).unmarked
            leavesub := hc
            next := ?_
            arm := ?_
            shaped := hshaped
            id_inj := ?_
            held := htidy.held
            nested := hb.toNested
            leveled := hlevel
            top := htop }, ?_⟩
  · intro u hu hc
    have hne : u.op.code ≠ .null := by
      intro h
      rw [h] at hc
      cases hc
    have hlen := (ht.ops u hu).leaf (by rwa [Node.role_of_ne hne])
    rw [List.length_map] at hlen
    exact List.length_eq_zero_iff.mp hlen
  · intro p _ hp z hz
    have he : Edge t p z := (hflow.link hh ht htidy hp hz).resolve_right fun h => by cases h.2
    refine ⟨(he.mem hn).2, he.live hn, fun u hu hfu hzu => ?_, hlevel.edge hb.toNested hn he⟩
    by_cases hs : z = u.start
    · exact Or.inl hs
    · have hnu := nodup_subtree hn hu
      have hin := he.inside (threaded_of_firm hn hu hfu) hn hzu hs
      exact Or.inr (Or.inr ⟨p, rfl, (hin.mem hnu).1, hin.ne_root hnu hfu.logop⟩)
  · intro u _ _ p _ hp
    rw [(htidy.clean p).unmarked] at hp
    cases hp
  · intro r _ hr hne
    refine (hflow.next_ne_none ht hr).resolve_right fun h => hne (h.1.eq_root ?_)
    simp [Node.opClass, Node.isEx, hc, Opcode.opClass]
  · intro r hr hlog
    obtain ⟨u, hu, rfl⟩ := List.mem_map.mp hr
    refine hflow.other_ne_none ht hu ((branches_iff (ht.ops u hu)).mpr ?_)
    rw [← (hh.subtree hu).fits.op, Node.opClass_plain]
    exact hlog
  · intro r hr q hq
    exact htidy.numbered.inj r q trivial trivial (hh.lt hr) (hh.lt hq) (hh.live hr) (hh.live hq)
  · exact ⟨t.start_mem_recs, live_start t, fun u hu _ hs => Or.inl (start_eq_of_mem hn hu hs).symm,
      htop.symm.trans ((hlevel.into_start hb.toNested).1 hb.root).symm⟩

/-- Only links of execution and marks of the records in `s` differ. -/
structure Rewired (a b : Arena) (s : List RecId) : Prop extends Local a b s where
  node : ∀ r, b.node r =
    { a.node r with next := (b.node r).next, real := (b.node r).real, other := (b.node r).other,
                    processed := (b.node r).processed }

theorem Rewired.of_update {r : RecId} {f : Node → Node} {s : List RecId} (hr : r ∈ s)
    (hf : ∀ n, f n = { n with next := (f n).next, real := (f n).real, other := (f n).other,
                              processed := (f n).processed }) : Rewired a (a.update r f) s where
  toLocal := .of_update hr
  node q := by
    rcases node_update_cases (a := a) (r := r) (f := f) q with hq | ⟨-, hq⟩
    · rw [hq]
    · rw [hq]
      exact hf _

theorem Rewired.passes {s : List RecId} (h : Rewired a b s) (r : RecId) :
    (b.node r).passes = (a.node r).passes := by
  rw [h.node r]
  rfl

theorem Rewired.opClass {s : List RecId} (h : Rewired a b s) (r : RecId) :
    (b.node r).opClass = (a.node r).opClass := by
  rw [h.node r]
  rfl

theorem Rewired.recalls {s : List RecId} (h : Rewired a b s) (r : RecId) : (a.node r).Recalls (b.node r) := by
  rw [h.node r]
  exact ⟨fun _ he => ⟨he, rfl⟩, fun _ => ⟨rfl, rfl, rfl, rfl, rfl, rfl⟩⟩

theorem Rewired.eases {s : List RecId} (h : Rewired a b s) (r : RecId) : (a.node r).Eases (b.node r) := by
  rw [h.node r]
  exact Node.eases_of_path rfl rfl

theorem Rewired.forest {ts : List Tree} {s : List RecId} (h : Rewired a b s) (hf : a.Forest ts)
    (hs : s ⊆ ts.flatMap Tree.recs) : b.Forest ts := by
  refine ⟨hf.toStand.congr (Nat.le_of_eq h.size.symm) (fun t _ r _ => ?_)
    (hf.toStand.freeList h.toLocal hs), fun t ht => ?_⟩
  · rw [SamePlace, h.node r]
    exact ⟨rfl, rfl, rfl, rfl⟩
  · rw [h.node]
    exact hf.loose t ht

theorem Rewired.lands {s : List RecId} {p? : Option RecId} {z : RecId} (h : Rewired a b s)
    (hz : Lands S a t p? z) : Lands S b t p? z := hz.congr fun r _ hr => (h.passes r).trans hr

theorem Wired.rewired (h : Wired S a t) (hb : Rewired a b t.recs)
    (hother : ∀ r ∈ t.recs, (b.node r).other = none ∨ (a.node r).opClass = .logop)
    (hlinks : ∀ p ∈ t.recs, S p → ∀ z, b.Link p z → Lands S a t (some p) z)
    (hmarks : ∀ u ∈ t.subtrees, u.op.Firm → ∀ p ∈ u.recs, (b.node p).processed = true →
      (b.node u.start).processed = true ∨ (a.node u.start).passes = true)
    (hnext : ∀ r ∈ t.recs, (a.node r).next ≠ none → (b.node r).next ≠ none)
    (harm : ∀ r ∈ t.recs, (a.node r).other ≠ none → (b.node r).other ≠ none) : Wired S b t where
  forest := hb.forest h.forest (by simp)
  other r hr := by
    rw [hb.opClass]
    exact hother r hr
  leaf := h.leaf
  live := h.live
  links p hp hs z hz := hb.lands (hlinks p hp hs z hz)
  marks u hu hf p hp hm := by
    rw [hb.passes]
    exact hmarks u hu hf p hp hm
  unmarked r hr := by
    rw [hb.outside r hr]
    exact h.unmarked r hr
  leavesub := h.leavesub
  next r hr hS hne := hnext r hr (h.next r hr hS hne)
  arm r hr hc := harm r hr (h.arm r hr (hb.opClass r ▸ hc))
  shaped := h.shaped
  id_inj r hr q hq he := by
    rw [hb.node r, hb.node q] at he
    exact h.id_inj r hr q hq he
  held := h.held.of_local hb.toLocal
  nested := h.nested
  leveled := h.leveled
  top := h.top

theorem rewired_mark {o : RecId} (ho : o ∈ t.recs) : Rewired a (a.mark o) t.recs :=
  .of_update ho fun _ => rfl

theorem Wired.mark (h : Wired S a t) {p? : Option RecId} {o : RecId} (ho : Lands S a t p? o)
    (hp : ∀ p, p? = some p → (a.node p).processed = true) : Wired S (a.mark o) t := by
  have hnode : ∀ r, (a.mark o).node r = a.node r ∨
      r = o ∧ (a.mark o).node r = { a.node r with processed := true } := fun r => node_update_cases r
  have hkept : ∀ r, (a.node r).processed = true → ((a.mark o).node r).processed = true := by
    intro r hr
    rcases hnode r with h | ⟨-, h⟩
    · rw [h]
      exact hr
    · rw [h]
  refine h.rewired (rewired_mark ho.mem) ?_ ?_ ?_ (fun r _ hr => ?_) fun r _ hr => ?_
  · intro r hr
    rcases hnode r with h' | ⟨-, h'⟩ <;> rw [h'] <;> exact h.other r hr
  · intro p hpt hs z hz
    refine h.links p hpt hs z ?_
    rcases hnode p with h' | ⟨-, h'⟩
    · rwa [Link, h'] at hz
    · rwa [Link, h'] at hz
  · intro u hu hf p hpu hm
    have hold : ∀ q ∈ u.recs, (a.node q).processed = true →
        ((a.mark o).node u.start).processed = true ∨ (a.node u.start).passes = true :=
      fun q hq hqm => (h.marks u hu hf q hq hqm).imp_left (hkept _)
    rcases hnode p with h' | ⟨rfl, h'⟩
    · exact hold p hpu (by rwa [h'] at hm)
    -- the op itself is the start, or control came to it inside of the tree
    · rcases ho.enters u hu hf hpu with hs | hs | ⟨q, hq, hqu, -⟩
      · exact Or.inl (hs ▸ hm)
      · exact Or.inr hs
      · exact hold q hqu (hp q hq)
  · rcases hnode r with h' | ⟨-, h'⟩ <;> rwa [h']
  · rcases hnode r with h' | ⟨-, h'⟩ <;> rwa [h']

theorem Wired.setNext (h : Wired S a t) {p z : RecId} (hp : p ∈ t.recs) (hz : Lands S a t (some p) z) :
    Wired S (a.update p fun n => { n with next := some z, real := true }) t := by
  have hnode := node_update_cases (a := a) (r := p) (f := fun n => { n with next := some z, real := true })
  have hprocessed : ∀ r, ((a.update p fun n => { n with next := some z, real := true }).node r).processed =
      (a.node r).processed := by
    intro r
    rcases hnode r with h | ⟨-, h⟩ <;> rw [h]
  refine h.rewired (.of_update hp fun _ => rfl) ?_ ?_ ?_ (fun r _ hr => ?_) fun r _ hr => ?_
  · intro r hr
    rcases hnode r with h' | ⟨-, h'⟩ <;> rw [h'] <;> exact h.other r hr
  · intro r hr hs y hy
    rcases hnode r with h' | ⟨rfl, h'⟩
    · exact h.links r hr hs y (by rwa [Link, h'] at hy)
    · rw [Link, h'] at hy
      rcases hy with hy | hy
      · exact Option.some.inj hy ▸ hz
      · exact h.links r hr hs y (Or.inr hy)
  · intro u hu hf r hr hm
    rw [hprocessed] at hm ⊢
    exact h.marks u hu hf r hr hm
  · rcases hnode r with h' | ⟨-, h'⟩ <;> rw [h']
    · exact hr
    · exact nofun
  · rcases hnode r with h' | ⟨-, h'⟩ <;> rwa [h']

theorem Wired.setOther (h : Wired S a t) {p z : RecId} (hp : p ∈ t.recs) (hc : (a.node p).opClass = .logop)
    (hz : Lands S a t (some p) z) : Wired S (a.update p fun n => { n with other := some z }) t := by
  have hnode := node_update_cases (a := a) (r := p) (f := fun n => { n with other := some z })
  have hprocessed : ∀ r, ((a.update p fun n => { n with other := some z }).node r).processed =
      (a.node r).processed := by
    intro r
    rcases hnode r with h | ⟨-, h⟩ <;> rw [h]
  refine h.rewired (.of_update hp fun _ => rfl) ?_ ?_ ?_ (fun r _ hr => ?_) fun r _ hr => ?_
  · intro r hr
    rcases hnode r with h' | ⟨rfl, h'⟩
    · rw [h']
      exact h.other r hr
    · exact Or.inr hc
  · intro r hr hs y hy
    rcases hnode r with h' | ⟨rfl, h'⟩
    · exact h.links r hr hs y (by rwa [Link, h'] at hy)
    · rw [Link, h'] at hy
      rcases hy with hy | hy
      · exact h.links r hr hs y (Or.inl hy)
      · exact Option.some.inj hy ▸ hz
  · intro u hu hf r hr hm
    rw [hprocessed] at hm ⊢
    exact h.marks u hu hf r hr hm
  · rcases hnode r with h' | ⟨-, h'⟩ <;> rwa [h']
  · rcases hnode r with h' | ⟨-, h'⟩ <;> rw [h']
    · exact hr
    · exact nofun

section Soften

variable (hl : Local a b t.recs) (hs : ∀ r ∈ t.recs, (a.node r).Softens (b.node r))

include hs in
theorem Lands.soften {p? : Option RecId} {z : RecId} (h : Lands S a t p? z) (hh : a.Holds t) :
    Lands S b (t.reread b) p? z := by
  refine ⟨by simpa [reread] using h.mem, h.live, fun u' hu' hf hz => ?_, h.level⟩
  rw [reread, subtrees_mapOps] at hu'
  obtain ⟨u, hu, rfl⟩ := List.mem_map.mp hu'
  rw [op_mapOps, Node.firm_plain] at hf
  rw [recs_mapOps] at hz ⊢
  rw [start_mapOps, root_mapOps]
  have hfu : u.op.Firm := by
    rw [← (hh.subtree hu).fits.op, Node.firm_plain]
    exact (hs u.root (recs_subset hu u.root_mem_recs)).firm hf
  rcases h.enters u hu hfu hz with h | h | h
  · exact Or.inl h
  · exact Or.inr (Or.inl ((hs _ (recs_subset hu u.start_mem_recs)).passes h))
  · exact Or.inr (Or.inr h)

include hl hs in
theorem Holds.soften (h : a.Holds t) : b.Holds (t.reread b) := by
  intro u' hu'
  rw [reread, subtrees_mapOps] at hu'
  obtain ⟨u, hu, rfl⟩ := List.mem_map.mp hu'
  have hfit := (h.subtree hu).fits
  have hsoft := hs u.root (recs_subset hu u.root_mem_recs)
  have hroots : (u.mapOps fun r _ => (b.node r).plain).kids.map Tree.root = u.kids.map Tree.root := by
    rw [kids_mapOps, map_root_mapOps]
  refine ⟨?_, ?_, ?_, ?_, ?_, ?_⟩
  · rw [root_mapOps, hl.size]
    exact hfit.lt
  · rw [root_mapOps, op_mapOps]
  · rw [op_mapOps]
    refine hsoft.live ?_
    rw [← Node.plain_code, hfit.op]
    exact hfit.live
  · rw [root_mapOps, hsoft.first, hfit.first, ← List.head?_map, ← List.head?_map, hroots]
  · intro htr
    rw [op_mapOps, Node.opClass_plain] at htr
    obtain ⟨htr, hlast⟩ := hsoft.last htr
    rw [root_mapOps, hlast, hfit.last ?_, ← List.getLast?_map, ← List.getLast?_map, hroots]
    rwa [← hfit.op, Node.opClass_plain]
  · rw [root_mapOps, hroots]
    refine hfit.sibs.congr fun k hk => ?_
    obtain ⟨j, hj, rfl⟩ := List.mem_map.mp hk
    exact (hs j.root (recs_subset (subtrees_trans hu (kid_mem_subtrees hj)) j.root_mem_recs)).sib

include hl hs in
theorem Wired.soften (h : Wired S a t) : Wired S b (t.reread b) := by
  have hrecs : (t.reread b).recs = t.recs := recs_mapOps _ t
  have hsoft : ∀ r, (a.node r).Softens (b.node r) := by
    intro r
    by_cases hr : r ∈ t.recs
    · exact hs r hr
    · rw [hl.outside r hr]
      exact .refl _
  have hop : ∀ u ∈ t.subtrees, (a.node u.root).plain = u.op := fun u hu => (h.holds.subtree hu).fits.op
  have hturn : ∀ u ∈ t.subtrees, (b.node u.root).plain.turn = u.op.turn := fun u hu => by
    rw [← hop u hu, Node.turn_plain, Node.turn_plain, (hsoft u.root).turn]
  refine { forest := ⟨⟨?_, ?_, h.forest.toStand.freeList hl (by simp)⟩, ?_⟩
           other := ?_
           leaf := ?_
           live := ?_
           links := ?_
           marks := ?_
           unmarked := ?_
           leavesub := ?_
           next := ?_
           arm := ?_
           shaped := ?_
           id_inj := ?_
           held := h.held.of_local hl
           nested := h.nested.mapOps hturn
           leveled := h.leveled.mapOps hturn
           top := ?_ }
  · intro t' ht'
    rw [List.mem_singleton.mp ht']
    exact h.holds.soften hl hs
  · simpa [hrecs] using h.nodup
  · intro t' ht'
    rw [List.mem_singleton.mp ht', reread, root_mapOps, (hsoft t.root).sib]
    exact h.forest.loose t (by simp)
  · intro r hr
    rw [(hsoft r).other]
    exact (h.other r (hrecs ▸ hr)).imp_right (hsoft r).logop.mpr
  · intro u' hu' hc
    rw [reread, subtrees_mapOps] at hu'
    obtain ⟨u, hu, rfl⟩ := List.mem_map.mp hu'
    rw [op_mapOps] at hc
    rw [kids_mapOps, h.leaf u hu ?_]
    · rfl
    · rw [← hop u hu]
      exact (hsoft u.root).leaf hc
  · intro u' hu' hc
    rw [reread, subtrees_mapOps] at hu'
    obtain ⟨u, hu, rfl⟩ := List.mem_map.mp hu'
    rw [op_mapOps] at hc
    rw [root_mapOps]
    refine h.live u hu ?_
    rw [← hop u hu]
    exact (hsoft u.root).lineseq hc
  · intro p hp hlive z hz
    rw [hrecs] at hp
    refine (h.links p hp hlive z ?_).soften hs h.holds
    rwa [Link, (hsoft p).next, (hsoft p).other] at hz
  · intro u' hu' hf p hp hm
    rw [reread, subtrees_mapOps] at hu'
    obtain ⟨u, hu, rfl⟩ := List.mem_map.mp hu'
    rw [op_mapOps, Node.firm_plain] at hf
    rw [recs_mapOps] at hp
    rw [(hsoft p).processed] at hm
    rw [start_mapOps, (hsoft u.start).processed]
    refine (h.marks u hu ?_ p hp hm).imp_right (hsoft u.start).passes
    rw [← hop u hu, Node.firm_plain]
    exact (hsoft u.root).firm hf
  · intro r hr
    rw [(hsoft r).processed]
    exact h.unmarked r (hrecs ▸ hr)
  · rw [reread, op_mapOps]
    exact (hsoft t.root).leavesub h.code_root
  · intro r hr hS hne
    rw [(hsoft r).next]
    exact h.next r (hrecs ▸ hr) hS (by rwa [reread, root_mapOps] at hne)
  · intro r hr hc
    rw [(hsoft r).other]
    exact h.arm r (hrecs ▸ hr) ((hsoft r).logop.mp hc)
  · intro u' hu'
    rw [reread, subtrees_mapOps] at hu'
    obtain ⟨u, hu, rfl⟩ := List.mem_map.mp hu'
    have hshape := h.shaped u hu
    rw [← hop u hu, Node.shape_plain] at hshape
    rw [op_mapOps, kids_mapOps, List.length_map, Node.shape_plain]
    exact (hsoft u.root).shape _ hshape
  · intro r hr q hq he
    rw [(hsoft r).id, (hsoft q).id] at he
    exact h.id_inj r (hrecs ▸ hr) q (hrecs ▸ hq) he
  · rw [reread, root_mapOps]
    exact h.top

end Soften

end Arena

end OpTree
