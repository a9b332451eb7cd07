import OpTree.Proofs.Rewrites
import OpTree.Proofs.Assembled
import OpTree.SubUnit

/-!
# Finishing units

The way of a unit from its tree to the chain that runs: contexts are fixed up, the tree is threaded and
the optimizer walks it. At the end every op that can be reached is in the tree.
-/

namespace OpTree

set_option autoImplicit false

namespace Node

/-- Only the context and the file name of an op differ, and a context that was known still is. -/
structure Dressed (n n' : Node) : Prop where
  eq : n' = { n with flags := n'.flags, file := n'.file }
  known : n.want ≠ .unknown → n'.want ≠ .unknown
  kids : n'.flags.has Flags.kids = n.flags.has Flags.kids

theorem Dressed.refl (n : Node) : n.Dressed n := ⟨rfl, fun h => h, rfl⟩

theorem Dressed.trans {n n' n'' : Node} (h : n.Dressed n') (h' : n'.Dressed n'') : n.Dressed n'' where
  eq := by rw [h'.eq, h.eq]
  known hw := h'.known (h.known hw)
  kids := h'.kids.trans h.kids

theorem Dressed.alike {n n' : Node} (h : n.Dressed n') : n.Alike n' := by
  refine ⟨?_, ?_, h.kids, ?_⟩ <;> rw [h.eq]

theorem Dressed.recalls {n n' : Node} (h : n.Dressed n') : n.Recalls n' := by
  rw [h.eq]
  exact ⟨fun _ he => ⟨he, rfl⟩, fun _ => ⟨rfl, rfl, rfl, rfl, rfl, rfl⟩⟩

theorem Dressed.eases {n n' : Node} (h : n.Dressed n') : n.Eases n' :=
  eases_of_path h.alike.code (by rw [h.eq])

end Node

namespace Arena

open OpTree.Tree

variable {a b c : Arena}

theorem Relinked.recalls {s : List RecId} (h : Relinked a b s) (r : RecId) : (a.node r).Recalls (b.node r) := by
  rw [h.node r]
  exact ⟨fun _ he => ⟨he, rfl⟩, fun _ => ⟨rfl, rfl, rfl, rfl, rfl, rfl⟩⟩

theorem Relinked.eases {s : List RecId} (h : Relinked a b s) (r : RecId) : (a.node r).Eases (b.node r) := by
  rw [h.node r]
  exact Node.eases_of_path rfl rfl

/-- Only contexts and file names differ, and a context that was known still is. -/
structure Dressed (a b : Arena) : Prop where
  rest : b = { a with recs := b.recs }
  size : b.recs.size = a.recs.size
  node : ∀ r, (a.node r).Dressed (b.node r)

theorem Dressed.refl (a : Arena) : Dressed a a := ⟨rfl, rfl, fun r => .refl (a.node r)⟩

theorem Dressed.trans (h : Dressed a b) (h' : Dressed b c) : Dressed a c where
  rest := by rw [h'.rest, h.rest]
  size := h'.size.trans h.size
  node r := (h.node r).trans (h'.node r)

theorem Dressed.revised (h : Dressed a b) (r : RecId) : (a.node r).plain.Revised (b.node r).plain :=
  ⟨(h.node r).alike.code, (h.node r).alike.ex, (h.node r).known⟩

theorem Dressed.kids_eq (h : Dressed a b) (r : RecId) : b.kids r = a.kids r := by
  rw [kids, kids, bound, bound, h.size, (h.node r).eq]
  exact siblingsFrom_congr fun q _ => by rw [(h.node q).eq]; rfl

theorem Dressed.holds {t : Tree} (h : Dressed a b) (hh : a.Holds t) : b.Holds (t.reread b) := by
  refine hh.mapOps (Nat.le_of_eq h.size.symm) (fun u hu => ⟨rfl, ?_, ?_⟩) (fun r _ => ?_) fun u _ k _ => ?_
  · rw [(h.revised u.root).code, (hh u hu).op]
    exact (hh u hu).live
  · rw [(h.revised u.root).opClass, (hh u hu).op]
  · rw [(h.node r).eq]
    exact ⟨rfl, rfl⟩
  · rw [(h.node _).eq]

theorem Dressed.site {t : Tree} (h : Dressed a b) (hs : a.Site [t]) : b.Site [t.reread b] := by
  have hh : a.Holds t := hs.holds t (by simp)
  have hrevised : ∀ u ∈ t.subtrees, u.op.Revised (b.node u.root).plain := fun u hu => by
    rw [← (hh u hu).op]
    exact h.revised u.root
  refine ⟨⟨⟨fun u hu => ?_, ?_, ?_⟩, fun u hu => ?_⟩, fun u hu => ?_⟩
  · obtain rfl := List.mem_singleton.mp hu
    exact h.holds hh
  · rw [List.flatMap_singleton, reread, recs_mapOps]
    simpa using hs.nodup
  · obtain ⟨fs, hfs⟩ := hs.free
    refine ⟨fs, fun g hg => ?_, hfs.nodup, fun r hr => by rw [h.size]; exact hfs.lt r hr, fun r hr => ?_⟩
    · rw [h.rest] at hg
      exact (hfs.chain g hg).congr fun r _ => by rw [(h.node r).eq]
    · rw [(h.node r).eq]
      exact hfs.freed r hr
  · obtain rfl := List.mem_singleton.mp hu
    rw [reread, root_mapOps, (h.node _).eq]
    exact hs.loose t (by simp)
  · obtain rfl := List.mem_singleton.mp hu
    refine ((hs.ready t (by simp)).congr fun r _ => ?_).mapOps fun u hu => (hrevised u hu).sameShape
    rw [SameLinks, (h.node r).eq]
    exact ⟨rfl, rfl⟩

theorem Dressed.finished {t : Tree} (h : Dressed a b) (hh : a.Holds t) (ht : t.Finished) :
    (t.reread b).Finished :=
  ht.mapOps fun u hu => by
    rw [← (hh u hu).op]
    exact h.revised u.root

theorem Dressed.shaped {t : Tree} (h : Dressed a b) (hh : a.Holds t) (ht : t.Shaped) : (t.reread b).Shaped :=
  ht.mapOps fun u hu => by
    rw [← (hh u hu).op]
    exact ⟨(h.revised u.root).code, (h.revised u.root).ex, (h.node u.root).kids, (h.node u.root).alike.path⟩

theorem Dressed.turn {t : Tree} (h : Dressed a b) (hh : a.Holds t) :
    ∀ u ∈ t.subtrees, (b.node u.root).plain.turn = u.op.turn := fun u hu => by
  rw [← (hh u hu).op, Node.turn_plain, Node.turn_plain, (h.node u.root).eq]
  rfl

theorem Dressed.kindred (h : Dressed a b) : Kindred a b :=
  ⟨h.rest, h.size, fun r => by rw [(h.node r).eq]; rfl⟩

end Arena

namespace TreeM

open Arena

variable {α β : Type}

/-- Run where nothing but contexts and file names differ from `a`, it comes to an answer with `Q`, and
changes nothing else. -/
def Dresses (a : Arena) (x : TreeM α) (Q : α → Prop) : Prop :=
  ∀ ⦃b : Arena⦄, a.Dressed b → ∃ v c, x b = .ok v c ∧ a.Dressed c ∧ Q v

variable {a : Arena} {P : β → Prop} {Q : α → Prop}

theorem dresses_of_eq {x : TreeM α} {f : Arena → α} (h : ∀ b, x b = .ok (f b) b)
    (hQ : ∀ b, a.Dressed b → Q (f b)) : Dresses a x Q := fun b hb => ⟨f b, b, h b, hb, hQ b hb⟩

theorem dresses_pure {v : α} (h : Q v) : Dresses a (pure v) Q := dresses_of_eq (fun _ => rfl) fun _ _ => h

theorem Dresses.bind {x : TreeM β} {f : β → TreeM α} (hx : Dresses a x P) (hf : ∀ v, P v → Dresses a (f v) Q) :
    Dresses a (x >>= f) Q := by
  intro b hb
  obtain ⟨v, c, hv, hc, hP⟩ := hx hb
  rw [bind_of_ok hv]
  exact hf v hP hc

theorem dresses_ite {p : Prop} [Decidable p] {x y : TreeM α} (hx : p → Dresses a x Q) (hy : ¬p → Dresses a y Q) :
    Dresses a (if p then x else y) Q := by
  split
  · exact hx ‹_›
  · exact hy ‹_›

theorem dresses_get : Dresses a (get : TreeM Arena) a.Dressed := dresses_of_eq (fun _ => rfl) fun _ h => h

theorem dresses_node (r : RecId) : Dresses a (node r) (a.node r).Dressed :=
  dresses_of_eq (fun _ => rfl) fun _ h => h.node r

theorem dresses_kids (r : RecId) : Dresses a (kids r) (· = a.kids r) :=
  dresses_of_eq (fun _ => rfl) fun _ h => h.kids_eq r

theorem dresses_kid {r k : RecId} {i : Int} {f : RecId → TreeM α} (hk : a.kid? r i = some k)
    (hf : Dresses a (f k) Q) : Dresses a (do f (← need (← kid? r i))) Q := by
  refine Dresses.bind (P := (· = some k)) (dresses_of_eq (fun _ => rfl) fun b hb => ?_) ?_
  · rw [← hk, Arena.kid?, Arena.kid?, hb.kids_eq]
  · rintro _ rfl
    exact hf

theorem dresses_update {r : RecId} {f : Node → Node} (hf : ∀ n : Node, n.Dressed (f n)) :
    Dresses a (update r f) fun _ => True := by
  intro b hb
  refine ⟨(), b.update r f, rfl, hb.trans ⟨rfl, size_update b r f, fun q => ?_⟩, trivial⟩
  rcases node_update_cases (a := b) (r := r) (f := f) q with he | ⟨-, he⟩
  · rw [he]
    exact .refl _
  · rw [he]
    exact hf _

theorem dresses_setWant (r : RecId) : Dresses a (setWant r .void) fun _ => True :=
  dresses_update fun n => ⟨rfl, fun _ => by rw [Node.want_withWant]; exact nofun, n.flags.has_withWant .void⟩

open OpTree.Tree

theorem kids_of_branch {t : Tree} (h : t.op.Shape t.kids.length)
    (hc : t.op.code = .and ∨ t.op.code = .or ∨ t.op.code = .dor) : ∃ x y, t.kids = [x, y] := by
  have hlen : t.kids.length = 2 := by
    have hk := h.count (by rcases hc with hc | hc | hc <;> rw [hc] <;> exact nofun)
    have hclass : t.op.opClass = .logop := (Node.branch_of_code hc).2
    unfold Node.kidCountOk Node.kidRange at hk
    rw [hclass] at hk
    rcases hc with hc | hc | hc <;> rw [hc] at hk <;> simp at hk <;> omega
  exact List.length_eq_two.mp hlen

theorem kids_of_cond {t : Tree} (h : t.op.Shape t.kids.length) (hc : t.op.code = .condExpr) :
    ∃ x y z, t.kids = [x, y, z] := by
  have hk := h.count (by rw [hc]; exact nofun)
  unfold Node.kidCountOk Node.kidRange at hk
  rw [hc] at hk
  simp at hk
  exact List.length_eq_three.mp (by omega)

theorem length_recs_pos (t : Tree) : 0 < t.recs.length := List.length_pos_of_mem t.root_mem_recs

theorem length_recs_kid {k : Tree} {ks : List Tree} (h : k ∈ ks) :
    k.recs.length ≤ (ks.flatMap Tree.recs).length := by
  obtain ⟨js, ls, rfl⟩ := List.append_of_mem h
  simp only [List.flatMap_append, List.flatMap_cons, List.length_append]
  omega

theorem dresses_voidFrom (fuel : Nat) :
    (∀ {t : Tree}, a.Holds t → t.recs.Nodup → t.Shaped → 2 * t.recs.length ≤ fuel + 1 →
      Dresses a (Build.voidFrom fuel t.root) fun _ => True) ∧
    ∀ {ks : List Tree}, (∀ k ∈ ks, a.Holds k ∧ k.recs.Nodup ∧ k.Shaped) →
      2 * (ks.flatMap Tree.recs).length ≤ fuel → Dresses a (Build.voidAll fuel (ks.map Tree.root)) fun _ => True := by
  induction fuel with
  | zero =>
    refine ⟨fun {t} _ _ _ hf => ?_, fun {ks} _ hf => ?_⟩
    · have hpos := length_recs_pos t
      omega
    · cases ks with
      | nil => exact dresses_pure trivial
      | cons k ks =>
        have hpos := length_recs_pos k
        rw [List.flatMap_cons, List.length_append] at hf
        omega
  | succ fuel ih =>
    refine ⟨fun {t} hh hn hs hf => ?_, fun {ks} hks hf => ?_⟩
    · have hcode : (a.node t.root).code = t.op.code := by rw [← Node.plain_code, hh.fits.op]
      have hkids : a.kids t.root = t.kids.map Tree.root := hh.kids_eq hn
      have hall : ∀ k ∈ t.kids, a.Holds k ∧ k.recs.Nodup ∧ k.Shaped := fun k hk =>
        ⟨hh.kid hk, nodup_subtree hn (kid_mem_subtrees hk), hs.kid hk⟩
      have hlen : t.recs.length = (t.kids.flatMap Tree.recs).length + 1 := by
        obtain ⟨r, o, ks⟩ := t
        rw [recs_mk, List.length_cons, kids_mk]
      have hkid : ∀ k ∈ t.kids, Dresses a (Build.voidFrom fuel k.root) fun _ => True := fun k hk => by
        have hle := length_recs_kid hk
        exact ih.1 (hall k hk).1 (hall k hk).2.1 (hall k hk).2.2 (by omega)
      have hbelow : Dresses a (do Build.voidAll fuel (← kids t.root)) fun _ => True := by
        refine (dresses_kids t.root).bind ?_
        rintro _ rfl
        rw [hkids]
        exact ih.2 hall (by omega)
      unfold Build.voidFrom
      refine (dresses_setWant t.root).bind fun _ _ => (dresses_node t.root).bind fun n hn' => ?_
      rw [hn'.alike.code, hcode]
      have hsecond : t.op.code = .and ∨ t.op.code = .or ∨ t.op.code = .dor →
          Dresses a (do Build.voidFrom fuel (← need (← kid? t.root 1))) fun _ => True := fun hc => by
        obtain ⟨x, y, hxy⟩ := kids_of_branch hs.op hc
        exact dresses_kid (by rw [Arena.kid?, hkids, hxy]; rfl) (hkid y (by simp [hxy]))
      split
      · refine (dresses_node t.root).bind fun m hm => ?_
        rw [hm.eq, hh.fits.first]
        cases hks : t.kids with
        | nil => exact dresses_pure trivial
        | cons k ks =>
          refine (dresses_node k.root).bind fun _ _ => dresses_ite (fun _ => ?_) fun _ => dresses_pure trivial
          exact hkid k (by simp [hks])
      · exact hsecond (Or.inl ‹_›)
      · exact hsecond (Or.inr (Or.inl ‹_›))
      · exact hsecond (Or.inr (Or.inr ‹_›))
      · rename_i hc
        obtain ⟨x, y, z, hxyz⟩ := kids_of_cond hs.op hc
        refine dresses_kid (k := y.root) (f := fun k => do
          Build.voidFrom fuel k
          Build.voidFrom fuel (← need (← kid? t.root 2))) (by rw [Arena.kid?, hkids, hxyz]; rfl) ?_
        refine (hkid y (by simp [hxyz])).bind fun _ _ => ?_
        exact dresses_kid (by rw [Arena.kid?, hkids, hxyz]; rfl) (hkid z (by simp [hxyz]))
      · exact hbelow
      · exact hbelow
      · exact hbelow
      · exact dresses_pure trivial
    · cases ks with
      | nil => exact dresses_pure trivial
      | cons k ks =>
        obtain ⟨hh, hn, hs⟩ := hks k (List.mem_cons_self ..)
        have hpos := length_recs_pos k
        rw [List.flatMap_cons, List.length_append] at hf
        have hrest := ih.2 (fun j hj => hks j (List.mem_cons_of_mem k hj)) (by omega)
        rw [List.map_cons]
        unfold Build.voidAll
        refine (dresses_node k.root).bind fun n _ => ?_
        exact dresses_ite (fun _ => (ih.1 hh hn hs (by omega)).bind fun _ _ => hrest) fun _ => hrest

theorem dresses_voidStatements (keep : Option RecId) {ks : List Tree}
    (hks : ∀ k ∈ ks, a.Holds k ∧ k.recs.Nodup ∧ k.Shaped) :
    Dresses a (voidStatements keep (ks.map Tree.root)) fun _ => True := by
  induction ks with
  | nil => exact dresses_pure trivial
  | cons k ks ih =>
    obtain ⟨hh, hn, hs⟩ := hks k (List.mem_cons_self ..)
    have hvoid : Dresses a (Build.void k.root) fun _ => True := by
      refine dresses_get.bind fun b hb => (dresses_voidFrom _).1 hh hn hs ?_
      have hle := hh.length_recs_le hn
      rw [bound, hb.size]
      omega
    have hrest := ih fun j hj => hks j (List.mem_cons_of_mem k hj)
    rw [List.map_cons]
    unfold voidStatements
    exact (dresses_node k.root).bind fun n _ => dresses_ite (fun _ => hvoid.bind fun _ _ => hrest) fun _ => hrest

theorem dresses_fixup {t : Tree} (hh : a.Holds t) (hn : t.recs.Nodup) (hs : t.Shaped) :
    Dresses a (fixup t.root) fun _ => True := by
  unfold fixup
  refine (dresses_node t.root).bind fun n _ => ?_
  split
  · refine dresses_ite (fun _ => dresses_get.bind fun b _ => ?_) fun _ => dresses_pure trivial
    exact dresses_update fun n => ⟨rfl, fun h => h, rfl⟩
  · refine dresses_get.bind fun b hb => ?_
    rw [hb.kids_eq, hh.kids_eq hn]
    exact dresses_voidStatements _ fun k hk => ⟨hh.kid hk, nodup_subtree hn (kid_mem_subtrees hk), hs.kid hk⟩
  · exact dresses_pure trivial

theorem dresses_fixupStack {fuel : Nat} {ts : List Tree} (hts : ∀ t ∈ ts, a.Holds t ∧ t.recs.Nodup ∧ t.Shaped)
    (hf : (ts.flatMap Tree.recs).length ≤ fuel) :
    Dresses a (fixupStack fuel (ts.map Tree.root)) fun _ => True := by
  induction fuel generalizing ts with
  | zero =>
    cases ts with
    | nil => exact dresses_pure trivial
    | cons t ts =>
      have hpos := length_recs_pos t
      rw [List.flatMap_cons, List.length_append] at hf
      omega
  | succ fuel ih =>
    cases ts with
    | nil => exact dresses_pure trivial
    | cons t ts =>
      obtain ⟨hh, hn, hs⟩ := hts t (List.mem_cons_self ..)
      refine (dresses_fixup hh hn hs).bind fun _ _ => (dresses_kids t.root).bind ?_
      rintro _ rfl
      rw [hh.kids_eq hn, ← List.map_reverse, ← List.map_append]
      refine ih (fun u hu => ?_) ?_
      · rcases List.mem_append.mp hu with hu | hu
        · have hk := List.mem_reverse.mp hu
          exact ⟨hh.kid hk, nodup_subtree hn (kid_mem_subtrees hk), hs.kid hk⟩
        · exact hts u (List.mem_cons_of_mem t hu)
      · have hperm := ((List.reverse_perm t.kids).flatMap_right Tree.recs).length_eq
        obtain ⟨r, o, ks⟩ := t
        rw [List.flatMap_cons, List.length_append, recs_mk, List.length_cons] at hf
        rw [List.flatMap_append, List.length_append, hperm, kids_mk]
        omega

theorem dresses_fixups {t : Tree} (hh : a.Holds t) (hn : t.recs.Nodup) (hs : t.Shaped) :
    Dresses a (fixups t.root) fun _ => True := by
  refine dresses_get.bind fun b hb => @dresses_fixupStack a _ [t] (by simpa using ⟨hh, hn, hs⟩) ?_
  have hle := hh.length_recs_le hn
  rw [List.flatMap_singleton, bound, hb.size]
  calc t.recs.length ≤ a.recs.size + 1 := by omega
    _ ≤ (a.recs.size + 1) * (a.recs.size + 1) := Nat.le_mul_self _

/-- The way of a unit to the optimizer. -/
def prepare (root : RecId) : TreeM (Option RecId) := do
  fixups root
  chain root

theorem thread_eq (root : RecId) (a : Arena) : thread root a = (prepare root >>= optimize) a := by
  simp only [thread, prepare, chain, bind_assoc, pure_bind]

open Peep in
/-- A unit with the tree `u` where the optimizer starts. -/
structure Prepared (S : Course) (a d : Arena) (u : Tree) : Prop where
  tree : d.tree u.root = u
  tended : Tended S u.root { start := some u.start } d
  live : S u.root
  tune : d.tune = a.tune
  begins : (d.node u.start).code = .nextstate
  tidy : d.Tidy
  reworked : Reworked u.root a d
  flow : d.Flow u none
  proper : u.Proper
  reached : ∀ r, S r → Live u r

theorem prepare_threaded {a : Arena} {t : Tree} (h : a.Assembled t) :
    ∃ a₁ S d, fixups t.root a = .ok () a₁ ∧ prepare t.root a = .ok (some t.start) d ∧ Prepared S a d (t.reread a₁) := by
  have hh : a.Holds t := h.site.holds t (by simp)
  have hn : t.recs.Nodup := by simpa using h.site.nodup
  obtain ⟨⟨⟩, a₁, hfix, hdress, -⟩ := dresses_fixups hh hn h.shaped (.refl a)
  refine ⟨a₁, ?_⟩
  rw [prepare, bind_of_ok hfix, chain]
  have hsite := hdress.site h.site
  have hfinished := hdress.finished hh h.finished
  have hshaped := hdress.shaped hh h.shaped
  have hbalanced : (t.reread a₁).Balanced := h.balanced.mapOps (hdress.turn hh)
  have hslots : (t.reread a₁).slots.Nodup := by
    rw [reread, slots_mapOps (hdress.turn hh)]
    exact h.slots
  have hcode : (t.reread a₁).op.code = .leavesub := by
    rw [reread, op_mapOps, (hdress.revised t.root).code, hh.fits.op, h.code]
  have htree : (a.tree t.root).recs = (t.reread a₁).recs := by
    rw [hh.tree_eq hn, reread, recs_mapOps]
  have hbegins : (a₁.node t.start).code = .nextstate := by
    obtain ⟨w, hw, hstart, hstate⟩ := h.begins
    rw [← hstart, ← Node.plain_code, (hdress.revised w.root).code, (hh w hw).op, hstate]
  have hroot : (t.reread a₁).root = t.root := root_mapOps _ t
  have hfirst : (t.reread a₁).start = t.start := start_mapOps _ t
  have htune : a₁.tune = a.tune := by rw [hdress.rest]
  have htidy₁ := (h.tidy.kindred hdress.kindred).tidy
  generalize t.reread a₁ = u at *
  rw [← hfirst] at hbegins
  replace hh : a₁.Holds u := hsite.holds u (by simp)
  replace hn : u.recs.Nodup := by simpa using hsite.nodup
  obtain ⟨c, hlin, hc₁, hlinked⟩ := linearize_ok (hsite.ready u (by simp)) hh hn
  rw [← hroot, ← hfirst, bind_of_ok hlin, bind_of_ok (setNext_apply _ _ _)]
  have hflow := hlinked.lead (hc₁.holds hh) hn (by rw [hcode]; rfl) none true
  have htidy₂ : Arena.Tidy (c.update u.root fun n => { n with next := none, real := true }) :=
    (((steady_linearize u.root).bind fun _ => steady_setNext u.root none).tidies htidy₁
      (by rw [bind_of_ok hlin]; rfl)).tidy
  have hre : Relinked a₁ (c.update u.root fun n => { n with next := none, real := true }) u.recs :=
    hc₁.relinked.trans (Relinked.of_next.mono (by simp [u.root_mem_recs])) (fun _ h => h) fun _ h => h
  have hforest : Arena.Forest (c.update u.root fun n => { n with next := none, real := true }) [u] := by
    refine hsite.toForest.head hre.toLocal (hre.holds hh) rfl ?_
    rw [hre.node]
    exact hsite.loose u (by simp)
  have htune₂ : (c.update u.root fun n => { n with next := none, real := true }).tune = a₁.tune :=
    hre.toLocal.tune_eq
  replace hbegins : ((c.update u.root fun n => { n with next := none, real := true }).node u.start).code =
      .nextstate := by
    rw [hre.node]
    exact hbegins
  have hpad₂ : (c.update u.root fun n => { n with next := none, real := true }).pad = a.pad :=
    hre.toLocal.pad_eq.trans (by rw [hdress.rest])
  have hops : ∀ r, (a.node r).Recalls ((c.update u.root fun n => { n with next := none, real := true }).node r) ∧
      (a.node r).Eases ((c.update u.root fun n => { n with next := none, real := true }).node r) := fun r =>
    ⟨(hdress.node r).recalls.trans (hre.recalls r), (hdress.node r).eases.trans (hre.eases r)⟩
  have hsize₂ := hre.toLocal.size.trans hdress.size
  generalize c.update u.root _ = d at hflow htidy₂ hforest htune₂ hbegins hpad₂ hops hsize₂
  obtain ⟨hw, hstart⟩ := wired_of_flow hforest hflow hfinished.proper hshaped hcode htidy₂ hn hbalanced hslots
  have hdtree : d.tree u.root = u := hw.tree_eq
  refine ⟨u.course hn hbalanced hslots, d, hroot ▸ hfix, rfl, hdtree, ⟨by rwa [hdtree], ?_, Option.some_ne_none _,
    fun _ hwhy => by cases hwhy⟩, live_of_code hn u.self_mem_subtrees (by rw [hcode]; decide), htune₂.trans htune,
    hbegins, htidy₂, ⟨⟨hsize₂, hpad₂, ?_, fun r _ => (hops r).1⟩, fun r _ => Or.inl (hops r).2⟩, hflow, hfinished.proper, fun _ h => h⟩
  · rintro z ⟨⟩
    rwa [hdtree]
  · rw [hdtree, hroot, htree]
    exact fun _ h => h

open Peep in
/-- The chain of a unit begins with the announcement of a statement, and nothing of it has been visited. -/
theorem prepare_tended {a : Arena} {t : Tree} (h : a.Assembled t) :
    ∃ S d, prepare t.root a = .ok (some t.start) d ∧ Tended S t.root { start := some t.start } d ∧ S t.root ∧
      d.tune = a.tune ∧ (d.node t.start).code = .nextstate ∧ (d.node t.start).processed = false ∧
      Reworked t.root a d := by
  obtain ⟨a₁, S, d, -, hprep, hd⟩ := prepare_threaded h
  have hroot : (t.reread a₁).root = t.root := root_mapOps _ t
  have hstart : (t.reread a₁).start = t.start := start_mapOps _ t
  rw [← hroot, ← hstart] at hprep ⊢
  exact ⟨S, d, hprep, hd.tended, hd.live, hd.tune, hd.begins, (hd.tidy.clean _).unmarked, hd.reworked⟩

open Peep in
/-- A unit is wired when the optimizer is done with it. Nothing but memory can fail on the way. -/
theorem thread_tended {a : Arena} {t : Tree} (h : a.Assembled t) :
    match thread t.root a with
    | .ok opt b => ∃ (S : Course) (ps : PeepState), opt = ⟨ps.start, ps.stats, ps.failure?⟩ ∧
        Tended S t.root ps b ∧ S t.root ∧ Reworked t.root a b
    | .error e _ => e = .fatal none ∧ Memory.holds 8 a.tune.deferQueue = false := by
  obtain ⟨S, d, hprep, hten, hlive, htune, -, -, hwork⟩ := prepare_tended h
  rw [thread_eq, bind_of_ok hprep, ← htune]
  have hmemory : (Failure.fatal none = .fatal none ∧ Memory.holds 8 d.tune.deferQueue = false) ∨
      Memory.holds 8 d.tune.deferQueue = true := by
    cases Memory.holds 8 d.tune.deferQueue <;> simp
  have hopt := optimize_rule (@onward_rule (fun e => e = .fatal none ∧ Memory.holds 8 d.tune.deferQueue = false)
    S t.root (fun c => c.tune = d.tune ∧ Reworked t.root a c)
    (fun h hab => ⟨hab.tune.trans h.1, h.2.trans hab.reworked⟩) fun h => h.1 ▸ hmemory) ⟨hten, rfl, hwork⟩ trivial
  cases hrun : optimize (some t.start) d with
  | ok opt b =>
    rw [hrun] at hopt
    obtain ⟨ps, rfl, hb, -⟩ := hopt
    exact ⟨S, ps, rfl, hb.1, hlive, hb.2.2⟩
  | error e b =>
    rw [hrun] at hopt
    exact hopt

end TreeM

namespace Arena

/-- The ops that can be reached from `start` along links of execution. -/
inductive Reach (a : Arena) (start : Option RecId) : RecId → Prop where
  | start {r : RecId} (h : start = some r) : Reach a start r
  | step {p q : RecId} (h : Reach a start p) (hq : a.Link p q) : Reach a start q

end Arena

namespace Peep

open Arena

theorem Tended.reach {S : Course} {root r : RecId} {ps : PeepState} {a : Arena}
    (h : Tended S root ps a) (hr : a.Reach ps.start r) : r ∈ (a.tree root).recs ∧ S r := by
  induction hr with
  | start hs =>
    have hl := h.start _ hs
    exact ⟨hl.mem, hl.live⟩
  | step _ hq ih =>
    have hl := h.wired.links _ ih.1 ih.2 _ hq
    exact ⟨hl.mem, hl.live⟩

end Peep

end OpTree
