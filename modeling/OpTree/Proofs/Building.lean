import OpTree.Proofs.Freeing
import OpTree.Proofs.Linearizing
import OpTree.Build.Fold

/-!
# Building sites

While a unit is built its finished trees stand side by side, each of them ready for the linearizer.
New ops, edits, appended kids and links keep a site in order.
-/

namespace OpTree

set_option autoImplicit false

namespace Arena

open OpTree.Tree

variable {a b c : Arena}

theorem FreeList.congr {fs : List RecId} (h : a.FreeList fs) (hg : b.group? = a.group?)
    (hsize : a.recs.size ≤ b.recs.size) (hnode : ∀ r ∈ fs, b.node r = a.node r) : b.FreeList fs where
  chain g hb := (h.chain g (hg ▸ hb)).congr fun r hr => congrArg Node.next (hnode r hr)
  nodup := h.nodup
  lt r hr := Nat.lt_of_lt_of_le (h.lt r hr) hsize
  freed r hr := by rw [hnode r hr, h.freed r hr]

theorem Stand.freeList {ts : List Tree} {s : List RecId} (h : a.Stand ts) (hl : Local a b s)
    (hs : s ⊆ ts.flatMap Tree.recs) : ∃ fs, b.FreeList fs := by
  obtain ⟨fs, hfs⟩ := h.free
  refine ⟨fs, hfs.congr (by rw [hl.rest]) (Nat.le_of_eq hl.size.symm) fun r hr => hl.outside r ?_⟩
  intro hm
  obtain ⟨t, ht, hrt⟩ := List.mem_flatMap.mp (hs hm)
  exact hfs.notMem (h.holds t ht) hrt hr

theorem Stand.notMem_of_cons {t : Tree} {ts : List Tree} (h : a.Stand (t :: ts)) {u : Tree}
    (hu : u ∈ ts) {r : RecId} (hr : r ∈ u.recs) : r ∉ t.recs := by
  intro hrt
  have hn := h.nodup
  rw [List.flatMap_cons] at hn
  exact (List.nodup_append.mp hn).2.2 r hrt r (List.mem_flatMap.mpr ⟨u, hu, hr⟩) rfl

theorem Stand.nodup_head {t : Tree} {ts : List Tree} (h : a.Stand (t :: ts)) : t.recs.Nodup :=
  nodup_of_mem h.nodup (List.mem_cons_self ..)

theorem Forest.head {t t' : Tree} {ts : List Tree} (h : a.Forest (t :: ts)) (hl : Local a b t.recs)
    (hholds : b.Holds t') (hrecs : t'.recs = t.recs) (hloose : (b.node t'.root).sib = {}) :
    b.Forest (t' :: ts) := by
  have hkeep : ∀ u ∈ ts, ∀ r ∈ u.recs, b.node r = a.node r := fun u hu r hr =>
    hl.outside r (h.toStand.notMem_of_cons hu hr)
  refine ⟨⟨fun u hu => ?_, ?_, h.toStand.freeList hl fun r hr => ?_⟩, fun u hu => ?_⟩
  · rcases List.mem_cons.mp hu with rfl | hu
    · exact hholds
    · exact (h.holds u (List.mem_cons_of_mem t hu)).of_samePlace (Nat.le_of_eq hl.size.symm)
        fun r hr => SamePlace.of_eq (hkeep u hu r hr)
  · simpa only [List.flatMap_cons, hrecs] using h.nodup
  · exact List.mem_flatMap.mpr ⟨t, List.mem_cons_self .., hr⟩
  · rcases List.mem_cons.mp hu with rfl | hu
    · exact hloose
    · rw [hkeep u hu _ u.root_mem_recs]
      exact h.loose u (List.mem_cons_of_mem t hu)

theorem Forest.edit {t : Tree} {ts : List Tree} {r : RecId} {f : Node → Node}
    (h : a.Forest (t :: ts)) (hf : DataEdit f) (hr : r ∈ t.recs) :
    (a.update r f).Forest (t.modify r (fun n => (f n).plain) :: ts) := by
  refine h.head (Local.of_update hr) (hf.holds (h.holds t (List.mem_cons_self ..)) r)
    (recs_modify t) ?_
  rw [root_modify]
  have hloose := h.loose t (List.mem_cons_self ..)
  by_cases he : t.root = r
  · subst he
    rw [node_update_self (h.holds t (List.mem_cons_self ..)).fits.lt, hf.sib, hloose]
  · rw [node_update_of_ne he, hloose]

theorem Forest.append {t u : Tree} {ts : List Tree} (h : a.Forest (t :: u :: ts)) :
    ∃ b, TreeM.append t.root (some u.root) a = .ok () b ∧ b.Forest (t.snoc u :: ts) ∧
      Regrown a b (t.recs ++ u.recs) := by
  have ht := h.holds t (by simp)
  have hu := h.holds u (by simp)
  have hn := h.nodup
  rw [List.flatMap_cons, List.flatMap_cons, ← List.append_assoc] at hn
  have hnn : (t.recs ++ u.recs).Nodup := (List.nodup_append.mp hn).1
  have htn : t.recs.Nodup := (List.nodup_append.mp hnn).1
  have happly := append_apply (k := u.root) ht htn (h.loose u (by simp))
  have hgrown : Regrown a (a.attach t.root u.root (t.kids.getLast?.map Tree.root))
      (t.recs ++ u.recs) := by
    refine attach_regrown (List.mem_append_left _ t.root_mem_recs)
      (List.mem_append_right _ u.root_mem_recs) fun r hr => ?_
    obtain ⟨k, hk, rfl⟩ := Option.map_eq_some_iff.mp hr
    exact List.mem_append_left _ (recs_subset (kid_mem_subtrees (List.mem_of_getLast? hk))
      k.root_mem_recs)
  have hloose : ((a.attach t.root u.root (t.kids.getLast?.map Tree.root)).node t.root).sib = {} := by
    have hne : t.root ≠ u.root :=
      (List.nodup_append.mp hnn).2.2 _ t.root_mem_recs _ u.root_mem_recs
    have hlast : t.kids.getLast?.map Tree.root ≠ some t.root := fun hr => by
      obtain ⟨k, hk, he⟩ := Option.map_eq_some_iff.mp hr
      exact root_notMem_kids htn
        (List.mem_flatMap.mpr ⟨k, List.mem_of_getLast? hk, he ▸ k.root_mem_recs⟩)
    obtain ⟨l, -, hnode⟩ := attach_node_parent hne ht.fits.lt hlast
    rw [hnode]
    split <;> exact h.loose t (by simp)
  have hholds := ht.snoc hu hnn
  generalize a.attach t.root u.root (t.kids.getLast?.map Tree.root) = b at *
  have hkeep : ∀ v ∈ ts, ∀ r ∈ v.recs, b.node r = a.node r := fun v hv r hr =>
    hgrown.outside r fun hm => (List.nodup_append.mp hn).2.2 r hm r (List.mem_flatMap.mpr ⟨v, hv, hr⟩) rfl
  refine ⟨b, happly, ⟨⟨fun v hv => ?_, ?_, h.toStand.freeList hgrown.toLocal ?_⟩, fun v hv => ?_⟩,
    hgrown⟩
  · rcases List.mem_cons.mp hv with rfl | hv
    · exact hholds
    · exact (h.holds v (by simp [hv])).of_samePlace (Nat.le_of_eq hgrown.size.symm)
        fun r hr => SamePlace.of_eq (hkeep v hv r hr)
  · rw [List.flatMap_cons, recs_snoc]
    exact hn
  · rw [List.flatMap_cons, List.flatMap_cons, ← List.append_assoc]
    exact List.subset_append_left _ _
  · rcases List.mem_cons.mp hv with rfl | hv
    · exact hloose
    · rw [hkeep v hv _ v.root_mem_recs]
      exact h.loose v (by simp [hv])

/-- Only the links of execution of the records in `s` differ. -/
structure Relinked (a b : Arena) (s : List RecId) : Prop extends Local a b s where
  node : ∀ r, b.node r =
    { a.node r with next := (b.node r).next, real := (b.node r).real, other := (b.node r).other }

theorem Rethreaded.relinked {s : List RecId} (h : Rethreaded a b s) : Relinked a b s where
  toLocal := h.toLocal
  node r := by rw [h.node r]

theorem Relinked.trans {s t u : List RecId} (h : Relinked a b s) (h' : Relinked b c t)
    (hs : s ⊆ u) (ht : t ⊆ u) : Relinked a c u where
  toLocal := h.toLocal.trans h'.toLocal hs ht
  node r := by rw [h'.node r, h.node r]

theorem Relinked.sameLinks {s : List RecId} (h : Relinked a b s) {r : RecId} (hr : r ∉ s) :
    SameLinks a b r := by
  rw [SameLinks, h.outside r hr]
  exact ⟨rfl, rfl⟩

theorem Relinked.of_other {r : RecId} {o : Option RecId} {s : List RecId} (hr : r ∈ s) :
    Relinked a (a.update r fun n => { n with other := o }) s where
  toLocal := Local.of_update hr
  node q := by
    by_cases h : q = r
    · subst h
      by_cases hlt : q < a.recs.size
      · rw [node_update_self hlt]
      · simp [update, Arena.node, hlt]
    · rw [node_update_of_ne h]

theorem Forest.relink {ts : List Tree} {s : List RecId} (h : a.Forest ts) (hb : Relinked a b s)
    (hs : s ⊆ ts.flatMap Tree.recs) : b.Forest ts := by
  refine ⟨h.toStand.congr (Nat.le_of_eq hb.size.symm) (fun t _ r _ => ?_)
    (h.toStand.freeList hb.toLocal hs), fun t ht => ?_⟩
  · rw [SamePlace, hb.node r]
    exact ⟨rfl, rfl, rfl, rfl⟩
  · rw [hb.node]
    exact h.loose t ht

/-- Finished trees side by side, all of them ready for the linearizer. -/
structure Site (a : Arena) (ts : List Tree) : Prop extends Forest a ts where
  ready : ∀ t ∈ ts, a.Ready t

theorem Site.perm {ts us : List Tree} (h : a.Site ts) (hp : ts.Perm us) : a.Site us :=
  ⟨h.toForest.perm hp, fun t ht => h.ready t (hp.mem_iff.mpr ht)⟩

theorem Site.congr {ts : List Tree} (h : a.Site ts) (hr : b.recs = a.recs)
    (hg : b.group? = a.group?) : b.Site ts := by
  have hnode : ∀ r, b.node r = a.node r := fun r => by rw [Arena.node, Arena.node, hr]
  have hsize : a.recs.size ≤ b.recs.size := Nat.le_of_eq (by rw [hr])
  obtain ⟨fs, hfs⟩ := h.free
  refine ⟨⟨h.toStand.congr hsize (fun _ _ r _ => SamePlace.of_eq (hnode r))
    ⟨fs, hfs.congr hg hsize fun r _ => hnode r⟩, fun t ht => ?_⟩, fun t ht => ?_⟩
  · rw [hnode]
    exact h.loose t ht
  · refine (h.ready t ht).congr fun r _ => ?_
    rw [SameLinks, hnode r]
    exact ⟨rfl, rfl⟩

theorem Site.edit {t : Tree} {ts : List Tree} {r : RecId} {f : Node → Node} (h : a.Site (t :: ts))
    (hf : DataEdit f) (hr : r ∈ t.recs) (hs : ∀ u ∈ t.subtrees, u.root = r → u.op.SameShape (f u.op)) :
    (a.update r f).Site (t.modify r (fun n => (f n).plain) :: ts) := by
  have hsame : ∀ q, SameLinks a (a.update r f) q := fun q =>
    ⟨(hf.regrown (List.mem_singleton.mpr rfl)).next q, (hf.regrown (List.mem_singleton.mpr rfl)).other q⟩
  refine ⟨h.toForest.edit hf hr, fun u hu => ?_⟩
  rcases List.mem_cons.mp hu with rfl | hu
  · refine ((h.ready t (by simp)).congr fun q _ => hsame q).mapOps fun u hu => ?_
    split
    · have := hs u hu ‹_›
      exact ⟨this.branches, this.leaveloop, this.enteriter, this.leavesub⟩
    · exact .of_code_eq rfl
  · exact (h.ready u (by simp [hu])).congr fun q _ => hsame q

/-- A new op that is getting its kids, beside finished trees. -/
structure Open (a : Arena) (t : Tree) (ts : List Tree) : Prop where
  forest : a.Forest (t :: ts)
  next : (a.node t.root).next = none
  kids : ∀ k ∈ t.kids, a.Ready k
  ready : ∀ u ∈ ts, a.Ready u

theorem Open.nodup {t : Tree} {ts : List Tree} (h : a.Open t ts) : t.recs.Nodup :=
  h.forest.toStand.nodup_head

theorem Open.lt {t : Tree} {ts : List Tree} (h : a.Open t ts) : t.root < a.recs.size :=
  (h.forest.holds t (by simp)).fits.lt

theorem Open.site {t : Tree} {ts : List Tree} (h : a.Open t ts) (hb : t.op.code.branches = false)
    (hl : isLoop t.op t.kids = false) : a.Site (t :: ts) := by
  refine ⟨h.forest, fun u hu => ?_⟩
  rcases List.mem_cons.mp hu with rfl | hu
  · cases u
    exact .op hb hl h.next h.kids
  · exact h.ready u hu

theorem Open.edit {t : Tree} {ts : List Tree} {f : Node → Node} (h : a.Open t ts) (hf : DataEdit f) :
    (a.update t.root f).Open (.mk t.root (f t.op).plain t.kids) ts := by
  have hsame : ∀ r, SameLinks a (a.update t.root f) r := fun r =>
    ⟨(hf.regrown (List.mem_singleton.mpr rfl)).next r, (hf.regrown (List.mem_singleton.mpr rfl)).other r⟩
  have hforest := h.forest.edit hf t.root_mem_recs
  rw [modify_root h.nodup] at hforest
  refine ⟨hforest, ?_, fun k hk => (h.kids k hk).congr fun r _ => hsame r,
    fun u hu => (h.ready u hu).congr fun r _ => hsame r⟩
  exact (hsame t.root).1.trans h.next

theorem Open.adopt {t u : Tree} {ts : List Tree} {f : Node → Node} (h : a.Open t (u :: ts))
    (hf : DataEdit f) (hs : ∀ n, Node.SameShape n (f n)) :
    ∃ b, (do TreeM.update u.root f; TreeM.append t.root (some u.root)) a = .ok () b ∧
      b.Open (t.snoc (.mk u.root (f u.op).plain u.kids)) ts := by
  have hun : u.recs.Nodup := nodup_of_mem h.forest.nodup (by simp)
  have hedit := (h.forest.perm (List.Perm.swap u t ts)).edit hf u.root_mem_recs
  rw [modify_root hun] at hedit
  obtain ⟨b, hok, hb, hgrown⟩ := (hedit.perm (List.Perm.swap t _ ts)).append
  have hsame : ∀ r, SameLinks a b r := fun r =>
    ⟨(hgrown.next r).trans ((hf.regrown (List.mem_singleton.mpr rfl)).next r),
      (hgrown.other r).trans ((hf.regrown (List.mem_singleton.mpr rfl)).other r)⟩
  refine ⟨b, hok, hb, ?_, fun k hk => ?_, fun v hv => (h.ready v (by simp [hv])).congr
    fun r _ => hsame r⟩
  · exact (hsame t.root).1.trans h.next
  · rw [kids_snoc] at hk
    rcases List.mem_append.mp hk with hk | hk
    · exact (h.kids k hk).congr fun r _ => hsame r
    · obtain rfl := List.mem_singleton.mp hk
      have hu := (h.ready u (by simp)).mapOps (g := fun q n => if q = u.root then (f n).plain else n)
        fun v _ => by
          split
          · exact ⟨(hs v.op).branches, (hs v.op).leaveloop, (hs v.op).enteriter, (hs v.op).leavesub⟩
          · exact .of_code_eq rfl
      have hmod : u.mapOps (fun q n => if q = u.root then (f n).plain else n) =
          .mk u.root (f u.op).plain u.kids := modify_root hun
      rw [hmod] at hu
      exact hu.congr fun r _ => hsame r

theorem Open.append {t u : Tree} {ts : List Tree} (h : a.Open t (u :: ts)) :
    ∃ b, TreeM.append t.root (some u.root) a = .ok () b ∧ b.Open (t.snoc u) ts := by
  obtain ⟨b, hok, hb, hgrown⟩ := h.forest.append
  have hsame : ∀ r, SameLinks a b r := fun r => ⟨hgrown.next r, hgrown.other r⟩
  refine ⟨b, hok, hb, (hsame t.root).1.trans h.next, fun k hk => ?_, fun v hv =>
    (h.ready v (by simp [hv])).congr fun r _ => hsame r⟩
  rw [kids_snoc] at hk
  rcases List.mem_append.mp hk with hk | hk
  · exact (h.kids k hk).congr fun r _ => hsame r
  · exact (h.ready k (by simp [List.mem_singleton.mp hk])).congr fun r _ => hsame r

end Arena

namespace TreeM

open Arena

variable {a b : Arena}

theorem open_of_new {ts : List Tree} {t : Opcode} {fl : Flags} {r : RecId} (h : a.Site ts)
    (ht : t ≠ .freed) (hr : new t fl a = .ok r b) :
    b.Open (.mk r { code := t, flags := fl, id := a.seq + 1 } []) ts ∧ b.seq = a.seq + 1 := by
  obtain ⟨hf, hn, -, hkeep, hrest⟩ := new_ok h.toForest ht hr
  refine ⟨⟨hf, hn, by simp, fun u hu => (h.ready u hu).congr fun q hq => ?_⟩, by rw [hrest]⟩
  rw [SameLinks, hkeep u hu q hq]
  exact ⟨rfl, rfl⟩

theorem open_new {t : Tree} {ts : List Tree} {c : Opcode} {fl : Flags} {r : RecId} (h : a.Open t ts)
    (hc : c ≠ .freed) (hb : c.branches = false) (hr : new c fl a = .ok r b) :
    b.Open t (.mk r { code := c, flags := fl, id := a.seq + 1 } [] :: ts) ∧ b.seq = a.seq + 1 := by
  obtain ⟨hf, hn, -, hkeep, hrest⟩ := new_ok h.forest hc hr
  have hsame : ∀ u ∈ t :: ts, ∀ q ∈ u.recs, SameLinks a b q := fun u hu q hq => by
    rw [SameLinks, hkeep u hu q hq]
    exact ⟨rfl, rfl⟩
  refine ⟨⟨hf.perm (List.Perm.swap _ _ _), ?_, fun k hk => ?_, fun u hu => ?_⟩, by rw [hrest]⟩
  · exact (hsame t (by simp) _ t.root_mem_recs).1.trans h.next
  · exact (h.kids k hk).congr fun q hq =>
      hsame t (by simp) q (Tree.recs_subset (Tree.kid_mem_subtrees hk) hq)
  · rcases List.mem_cons.mp hu with rfl | hu
    · exact .op hb (by simp [Tree.isLoop]) hn (by simp)
    · exact (h.ready u hu).congr (hsame u (by simp [hu]))

theorem Site.rethread {t : Tree} {ts : List Tree} (h : a.Site (t :: ts)) (hab : Rethreaded a b t.recs)
    (hr : b.Ready t) : b.Site (t :: ts) := by
  refine ⟨h.toForest.relink hab.relinked fun r hr => List.mem_flatMap.mpr ⟨t, by simp, hr⟩,
    fun u hu => ?_⟩
  rcases List.mem_cons.mp hu with rfl | hu
  · exact hr
  · exact (h.ready u (by simp [hu])).congr fun r hr => hab.sameLinks (h.toStand.notMem_of_cons hu hr)

theorem linearize_site {t : Tree} {ts : List Tree} (h : a.Site (t :: ts))
    (hs : t.op.code ≠ .leavesub) :
    ∃ b, linearize t.root a = .ok (some t.start) b ∧ b.Linked t ∧ b.Site (t :: ts) ∧
      b = { a with recs := b.recs } := by
  have hr := h.ready t (by simp)
  obtain ⟨b, hok, hab, hl⟩ := linearize_ok hr (h.holds t (by simp)) h.toStand.nodup_head
  exact ⟨b, hok, hl, Site.rethread h hab (.linked hr.not_branches hs hl), hab.rest⟩

/-- A trial by the outcome of its run. The compile state is that from before, and the root is left with a
loose end. -/
theorem trial_apply {r : RecId} (start : Option RecId)
    (hb : b = a.update r fun n => { n with next := none, real := true }) :
    trial r start a = match Exec.run ⟨b.recs, none⟩ b.bound start b.trying.trialMachine with
      | .ok _ m => .ok m.onlyScalar? b
      | .error e _ => match e with
        | .broken _ | .fatal _ => .error e b
        | _ => .ok none b := by
  have hrun : trial r start a = (do
      let a ← get
      let outcome := EStateM.run (Exec.run ⟨a.recs, none⟩ a.bound start) a.trialMachine
      pop
      match outcome with
      | .ok _ m => return m.onlyScalar?
      | .error e _ =>
        match e with
        | .broken _ | .fatal _ => throw e
        | _ => return none : TreeM (Option Value)) { b.trying with saved := b.state :: b.saved } := by
    subst hb
    rfl
  have hpop : pop { b.trying with saved := b.state :: b.saved } = .ok () b := rfl
  rw [hrun, bind_of_ok (get_apply _)]
  dsimp only
  rw [bind_of_ok hpop]
  change (match Exec.run ⟨b.recs, none⟩ b.bound start b.trying.trialMachine with
    | .ok _ m => return m.onlyScalar?
    | .error e _ => match e with
      | .broken _ | .fatal _ => throw e
      | _ => return none : TreeM (Option Value)) b = _
  cases Exec.run ⟨b.recs, none⟩ b.bound start b.trying.trialMachine with
  | ok _ m => rfl
  | error e m => cases e <;> rfl

theorem trial_ok {r : RecId} {start : Option RecId} {v? : Option Value}
    (h : trial r start a = .ok v? b) :
    b = a.update r fun n => { n with next := none, real := true } := by
  rw [trial_apply start rfl] at h
  split at h
  · exact (EStateM.Result.ok.inj h).2.symm
  · split at h
    · cases h
    · cases h
    · exact (EStateM.Result.ok.inj h).2.symm

/-- How an attempt to fold ends: the tree is untouched, or linearized and nothing more, or a constant is made
in its place and it is freed. -/
inductive Attempt (a b : Arena) (t : Tree) : RecId → Prop where
  | untouched (hb : b = a) : Attempt a b t t.root
  | linearized (hcan : t.op.code.foldable = true) (hb : Threaded a b t)
      (hlin : linearize t.root a = .ok (some (a.entrance t)) b) : Attempt a b t t.root
  | replaced {c d e : Arena} {k : RecId} {v : Value} (hcan : t.op.code.foldable = true) (hc : Threaded a c t)
      (hlin : linearize t.root a = .ok (some (a.entrance t)) c)
      (hsafe : c.chainSafe t.root c.bound (some (a.entrance t)) = true)
      (htrial : trial t.root (some (a.entrance t)) c = .ok (some v) d)
      (hnew : new .const (t.op.flags &&& (Flags.wantMask ||| Flags.parens)) c = .ok k e)
      (hfree : freeTree t.root (e.update k fun x =>
        { x with val := .scalar v, priv := x.priv ||| Priv.folded, line := t.op.line }) = .ok () b) :
      Attempt a b t k

/-- The floating root is cut off for a trial, and floats as before when that is over. -/
theorem fold_attempts {t : Tree} {k : RecId} (hh : a.Holds t) (hn : t.recs.Nodup)
    (hok : fold t.root a = .ok k b) : Attempt a b t k := by
  have hop : (a.node t.root).plain = t.op := hh.fits.op
  have hflags : (a.node t.root).flags = t.op.flags := by rw [← hop, Node.plain_flags]
  have hline : (a.node t.root).line = t.op.line := by rw [← hop]; rfl
  rw [fold, bind_of_ok (get_apply _)] at hok
  split at hok
  · obtain ⟨rfl, rfl⟩ := pure_eq_ok.mp hok
    exact .untouched rfl
  · rename_i hfold
    simp only [Bool.or_eq_true, Bool.not_eq_true', not_or, Bool.not_eq_false, Bool.not_eq_true] at hfold
    obtain ⟨⟨⟨-, hcan⟩, hnext⟩, -⟩ := hfold
    rw [← Node.plain_code, hop] at hcan
    obtain ⟨c, hlin, hc⟩ := linearize_threads hh hn
    have hfloat : c.Floats t.root (a.entrance t) := ⟨hc.next, by rw [hc.real, hnext, Bool.false_and]⟩
    rw [bind_of_ok hlin, bind_of_ok (get_apply _)] at hok
    split at hok
    · rw [bind_of_ok (float_apply _ _ _), hfloat.again] at hok
      obtain ⟨rfl, rfl⟩ := pure_eq_ok.mp hok
      exact .linearized hcan hc hlin
    · rename_i hsafe
      obtain ⟨v?, d, htrial, hok⟩ := bind_eq_ok.mp hok
      have hd := trial_ok htrial
      rw [bind_of_ok (float_apply _ _ _), hd, hfloat.refloat] at hok
      cases v? with
      | none =>
        obtain ⟨rfl, rfl⟩ := pure_eq_ok.mp hok
        exact .linearized hcan hc hlin
      | some v =>
        obtain ⟨k, e, hnew, hok⟩ := bind_eq_ok.mp hok
        rw [bind_of_ok (update_apply _ _ _)] at hok
        obtain ⟨_, g, hfree, hok⟩ := bind_eq_ok.mp hok
        obtain ⟨rfl, rfl⟩ := pure_eq_ok.mp hok
        rw [hflags] at hnew
        rw [hline] at hfree
        exact .replaced hcan hc hlin (by simpa using hsafe) htrial hnew hfree

/-- A tree after folding: as it was, or the constant it computes. -/
def Folded (t t' : Tree) : Prop :=
  t' = t ∨ t.op.code.foldable = true ∧ ∃ r v line id, t' = .mk r
    { code := .const, flags := t.op.flags &&& (Flags.wantMask ||| Flags.parens), val := .scalar v,
      priv := 0 ||| Priv.folded, line := line, id := id } []

theorem freeTree_site {t u : Tree} {ts : List Tree} (h : a.Site (u :: t :: ts))
    (hok : freeTree t.root a = .ok () b) : b.Site (u :: ts) := by
  obtain ⟨hs, hkeep⟩ := freeTree_ok (h.toStand.perm (List.Perm.swap t u ts)) hok
  have hmem : ∀ v ∈ u :: ts, v ∈ u :: t :: ts := fun v hv => by
    rcases List.mem_cons.mp hv with rfl | hv <;> simp [*]
  refine ⟨⟨hs, fun v hv => ?_⟩, fun v hv => (h.ready v (hmem v hv)).congr fun r hr => ?_⟩
  · rw [hkeep.node v hv _ v.root_mem_recs]
    exact h.loose v (hmem v hv)
  · rw [SameLinks, hkeep.node v hv r hr]
    exact ⟨rfl, rfl⟩

/-- What has happened to a tree that is replaced by the constant `v`: in `c` it is linked, its chain is
safe, and a run of that has left `v`. -/
structure Tried (a c : Arena) (t : Tree) (ts : List Tree) (v : Value) : Prop where
  foldable : t.op.code.foldable = true
  linearize : linearize t.root a = .ok (some t.start) c
  linked : c.Linked t
  site : c.Site (t :: ts)
  rest : c = { a with recs := c.recs }
  safe : c.chainSafe t.root c.bound (some t.start) = true
  trial : ∃ d, trial t.root (some t.start) c = .ok (some v) d

theorem fold_cases {t : Tree} {ts : List Tree} {r : RecId} (h : a.Site (t :: ts))
    (hok : fold t.root a = .ok r b) :
    r = t.root ∧ b.Site (t :: ts) ∨ r ≠ t.root ∧ ∃ c v line id, Tried a c t ts v ∧
      b.Site (.mk r
        { code := .const, flags := t.op.flags &&& (Flags.wantMask ||| Flags.parens), val := .scalar v,
          priv := 0 ||| Priv.folded, line := line, id := id } [] :: ts) := by
  have hready := h.ready t (by simp)
  have hsub : t.op.code.foldable = true → t.op.code ≠ .leavesub := by
    intro hcan he
    simp [he, Opcode.foldable] at hcan
  -- what the linearizer makes of a tree that is ready
  have hsite : ∀ {c : Arena}, t.op.code.foldable = true → linearize t.root a = .ok (some (a.entrance t)) c →
      c.Linked t ∧ c.Site (t :: ts) ∧ c = { a with recs := c.recs } := by
    intro c hcan hlin
    obtain ⟨c', hlin', hlc, hc, hrest⟩ := linearize_site h (hsub hcan)
    rw [hready.entrance_eq, hlin'] at hlin
    obtain rfl := (EStateM.Result.ok.inj hlin).2
    exact ⟨hlc, hc, hrest⟩
  cases fold_attempts (h.holds t (by simp)) h.toStand.nodup_head hok with
  | untouched hb => exact Or.inl ⟨rfl, hb ▸ h⟩
  | linearized hcan _ hlin => exact Or.inl ⟨rfl, (hsite hcan hlin).2.1⟩
  | @replaced c d e _ v hcan _ hlin hsafe htrial hnew hfree =>
    obtain ⟨hlc, hc, hrest⟩ := hsite hcan hlin
    have hopen := (open_of_new hc (by simp) hnew).1
    have hedit := (hopen.edit (f := fun x =>
      { x with val := .scalar v, priv := x.priv ||| Priv.folded, line := t.op.line })
      (by constructor <;> intros <;> first | rfl | assumption)).site rfl rfl
    have hne : r ≠ t.root := by
      have hnodup := hopen.forest.nodup
      rintro rfl
      simp [t.root_mem_recs] at hnodup
    rw [hready.entrance_eq] at hlin hsafe htrial
    have htried : Tried a c t ts v := ⟨hcan, hlin, hlc, hc, hrest, hsafe, d, htrial⟩
    exact Or.inr ⟨hne, c, v, t.op.line, c.seq + 1, htried, freeTree_site hedit hfree⟩

theorem fold_ok {t : Tree} {ts : List Tree} {r : RecId} (h : a.Site (t :: ts))
    (hok : fold t.root a = .ok r b) : ∃ t', t'.root = r ∧ Folded t t' ∧ b.Site (t' :: ts) := by
  rcases fold_cases h hok with ⟨rfl, hb⟩ | ⟨-, c, v, line, id, htried, hb⟩
  · exact ⟨t, rfl, Or.inl rfl, hb⟩
  · exact ⟨_, rfl, Or.inr ⟨htried.foldable, r, v, line, id, rfl⟩, hb⟩

end TreeM

end OpTree
