import OpTree.Proofs.Accounts

/-!
# Requests to a slab group

Whatever is asked of a group, and whether it fails or not, leaves its accounts in order.
-/

namespace OpTree

set_option autoImplicit false

namespace Arena

variable {a : Arena} {k : Nat}

/-- An arena of `k` records with its accounts in order and every op in a record that has room for it. -/
structure Sound (k : Nat) (a : Arena) : Prop where
  size : a.recs.size = k
  accounts : ∃ g fs, a.Accounts g fs
  fits : ∀ r < k, (a.node r).code ≠ .freed → ((a.node r).code.size : Int) ≤ (a.node r).size

theorem Sound.carved (h : a.Sound k) {r : RecId} (hr : r < k) : (a.node r).Carved k := by
  obtain ⟨g, fs, hacc⟩ := h.accounts
  exact h.size ▸ hacc.carved r (h.size ▸ hr)

theorem Sound.linked (h : a.Sound k) (r : RecId) : (a.node r).Linked k := by
  by_cases hr : r < k
  · exact (h.carved hr).toLinked
  · rw [node_of_le (by rw [h.size]; exact Nat.le_of_not_lt hr)]
    exact Node.linked_blank rfl rfl

theorem Sound.siblings (h : a.Sound k) {fuel : Nat} {o : Option RecId} (ho : ∀ r ∈ o, r < k) :
    ∀ r ∈ a.siblingsFrom fuel o, r < k := by
  induction fuel generalizing o with
  | zero => cases o <;> simp [siblingsFrom]
  | succ fuel ih =>
    cases o with
    | none => simp [siblingsFrom]
    | some q =>
      intro r hr
      rcases List.mem_cons.mp hr with rfl | hr
      · exact ho r rfl
      · exact ih (h.linked q).sibling r hr

theorem Sound.kids (h : a.Sound k) (r : RecId) : ∀ q ∈ a.kids r, q < k := h.siblings (h.linked r).first

theorem Sound.lastSibling (h : a.Sound k) {r : RecId} (hr : r < k) : a.lastSibling r < k := by
  have hall : ∀ q ∈ a.siblingsFrom a.bound (some r), q < k := h.siblings (by simpa using hr)
  unfold Arena.lastSibling
  rw [List.getLastD_eq_getLast?]
  cases hl : (a.siblingsFrom a.bound (some r)).getLast? with
  | none => exact hr
  | some q => exact hall q (List.mem_of_getLast? hl)

theorem Sound.lastDeleted (h : a.Sound k) {fuel : Nat} {del : Int} {r : RecId} (hr : r < k) :
    TreeM.lastDeleted a fuel del r < k := by
  induction fuel generalizing del r with
  | zero => exact hr
  | succ fuel ih =>
    unfold TreeM.lastDeleted
    split
    · exact hr
    · split
      · rename_i q hq
        exact ih ((h.linked r).sibling q hq)
      · exact hr

theorem Sound.update {r : RecId} {f : Node → Node} (h : a.Sound k)
    (he : ∀ n : Node, (f n).code = n.code ∧ (f n).entry = n.entry ∧ (f n).pinned = n.pinned ∧
      (f n).static = n.static)
    (hl : ∀ n : Node, n.Linked k → (f n).Linked k) : (a.update r f).Sound k where
  size := (size_update ..).trans h.size
  accounts := by
    obtain ⟨g, fs, hacc⟩ := h.accounts
    refine ⟨g, fs, hacc.update (he _).2.1 (he _).2.2.1 fun hr => ?_⟩
    have hc := hacc.carved r hr
    rw [h.size] at hc ⊢
    exact ⟨hl _ hc.toLinked, (he _).2.2.2.trans hc.slab⟩
  fits q hq hlive := by
    rcases node_update_cases (a := a) (r := r) (f := f) q with hn | ⟨-, hn⟩ <;> rw [hn] at hlive ⊢
    · exact h.fits q hq hlive
    · have hsize : (f (a.node q)).size = (a.node q).size := congrArg Node.Entry.size (he _).2.1
      rw [(he _).1] at hlive ⊢
      rw [hsize]
      exact h.fits q hq hlive

/-- A live record may be freed; that a record is freed twice is no account's business. -/
theorem Sound.free {g : Group} {r : RecId} (h : a.Sound k) (hg : a.group? = some g) (hr : r < k)
    (hlive : (a.node r).code ≠ .freed) : (a.free g r).Sound k where
  size := (size_update ..).trans h.size
  accounts := by
    obtain ⟨g', fs, hacc⟩ := h.accounts
    obtain rfl := Option.some.inj (hg.symm.trans hacc.group)
    exact hacc.free (h.size.symm ▸ hr) hlive
  fits q hq hl := by
    by_cases he : q = r
    · subst he
      have hself : ((a.free g q).node q).code = .freed := by
        rw [show (a.free g q).node q = _ from node_update_self (h.size.symm ▸ hr) _]
      exact absurd hself hl
    · have hother : (a.free g r).node q = a.node q := node_update_of_ne he _
      rw [hother] at hl ⊢
      exact h.fits q hq hl

theorem Sound.pin {g : Group} {r : RecId} {pinned : Bool} {refs : Int} (h : a.Sound k) (hg : a.group? = some g)
    (hp : (a.update r fun n => { n with pinned := pinned }).Pinned refs) :
    ({ a.update r fun n => { n with pinned := pinned } with group? := some { g with refs := refs } } :
      Arena).Sound k := by
  have hnode : ∀ q, ((a.update r fun n => { n with pinned := pinned }).node q).code = (a.node q).code ∧
      ((a.update r fun n => { n with pinned := pinned }).node q).entry = (a.node q).entry ∧
      ((a.update r fun n => { n with pinned := pinned }).node q).static = (a.node q).static ∧
      ((a.update r fun n => { n with pinned := pinned }).node q).first = (a.node q).first ∧
      ((a.update r fun n => { n with pinned := pinned }).node q).sib = (a.node q).sib := by
    intro q
    rcases node_update_cases (a := a) (r := r) (f := fun n => { n with pinned := pinned }) q with hq | ⟨-, hq⟩ <;>
      rw [hq] <;> exact ⟨rfl, rfl, rfl, rfl, rfl⟩
  obtain ⟨g', fs, hacc⟩ := h.accounts
  obtain rfl := Option.some.inj (hg.symm.trans hacc.group)
  refine ⟨(size_update ..).trans h.size, ⟨_, fs, hacc.amend rfl (size_update ..) (fun q => (hnode q).2.1) ?_ hp⟩, ?_⟩
  · intro q hq
    rw [size_update] at hq ⊢
    obtain ⟨-, -, hstatic, hfirst, hsib⟩ := hnode q
    have hc := hacc.carved q hq
    exact ⟨⟨hfirst ▸ hc.first, hsib ▸ hc.sib⟩, hstatic.trans hc.slab⟩
  · intro q hq hl
    obtain ⟨hcode, hentry, -⟩ := hnode q
    have hsize : ((a.update r fun n => { n with pinned := pinned }).node q).size = (a.node q).size :=
      congrArg Node.Entry.size hentry
    rw [node_withGroup, hcode] at hl ⊢
    rw [hsize]
    exact h.fits q hq hl

end Arena

namespace TreeM

open Arena

variable {α β : Type} {k : Nat}

/-- The arena that a computation leaves, failed or not. -/
def after (x : TreeM α) (a : Arena) : Arena :=
  match x a with
  | .ok _ b => b
  | .error _ b => b

theorem after_map (f : α → β) (x : TreeM α) (a : Arena) : after (f <$> x) a = after x a := by
  rw [after, after, map_apply]
  cases x a <;> rfl

/-- Leaves a sound arena sound, failed or not, and answers as `Q` says. -/
def Keeps (k : Nat) (x : TreeM α) (Q : α → Prop) : Prop :=
  ∀ ⦃a : Arena⦄, a.Sound k → (x.after a).Sound k ∧ ∀ ⦃v b⦄, x a = .ok v b → Q v

variable {P : α → Prop} {Q : β → Prop}

theorem keeps_pure {v : α} (h : P v) : Keeps k (pure v) P := by
  intro a ha
  refine ⟨ha, fun w b hok => ?_⟩
  exact (pure_eq_ok.mp hok).1 ▸ h

theorem keeps_throw (e : Failure) : Keeps k (throw e : TreeM α) P :=
  fun _ ha => ⟨ha, fun _ _ hok => absurd hok throw_ne_ok⟩

theorem keeps_get : Keeps k (get : TreeM Arena) fun a => a.Sound k := by
  intro a ha
  refine ⟨ha, fun v b hok => ?_⟩
  cases hok
  exact ha

theorem keeps_node (r : RecId) : Keeps k (node r) fun n => n.Linked k := by
  intro a ha
  refine ⟨ha, fun v b hok => ?_⟩
  cases hok
  exact ha.linked r

theorem keeps_need {r : Option RecId} : Keeps k (need r) fun _ => True := by
  cases r with
  | none => exact keeps_throw _
  | some r => exact keeps_pure trivial

theorem Keeps.bind {x : TreeM α} {f : α → TreeM β} (hx : Keeps k x P) (hf : ∀ v, P v → Keeps k (f v) Q) :
    Keeps k (x >>= f) Q := by
  intro a ha
  obtain ⟨hsound, hval⟩ := hx ha
  rw [after] at hsound ⊢
  rw [bind_apply]
  cases hxa : x a with
  | error e b =>
    rw [hxa] at hsound
    refine ⟨hsound, fun v c hok => ?_⟩
    cases hok
  | ok v b =>
    rw [hxa] at hsound
    exact hf v (hval hxa) hsound

theorem keeps_ite {p : Prop} [Decidable p] {x y : TreeM α} (hx : p → Keeps k x P) (hy : ¬ p → Keeps k y P) :
    Keeps k (if p then x else y) P := by
  split
  · exact hx ‹p›
  · exact hy ‹¬ p›

theorem keeps_update {r : RecId} {f : Node → Node}
    (he : ∀ n : Node, (f n).code = n.code ∧ (f n).entry = n.entry ∧ (f n).pinned = n.pinned ∧
      (f n).static = n.static)
    (hl : ∀ n : Node, n.Linked k → (f n).Linked k) : Keeps k (update r f) fun _ => True :=
  fun _ ha => ⟨ha.update he hl, fun _ _ _ => trivial⟩

theorem keeps_splice {parent start insert : Option RecId} (del : Int) (hp : ∀ r ∈ parent, r < k)
    (hi : ∀ r ∈ insert, r < k) : Keeps k (splice parent start del insert) fun _ => True := by
  have hsib : ∀ (r : RecId) {s : Sib}, (∀ q ∈ s.target, q < k) →
      Keeps k (update r fun n => { n with sib := s }) fun _ => True := fun r s hs =>
    keeps_update (fun _ => ⟨rfl, rfl, rfl, rfl⟩) fun _ hn => ⟨hn.first, hs⟩
  unfold splice
  extract_lets -underBinder counted
  have hcounted : ∀ u, Keeps k (counted u) fun _ => True := by
    intro u
    unfold counted
    extract_lets -underBinder found
    have hfound : ∀ first : Option RecId, (∀ r ∈ first, r < k) → Keeps k (found first) fun _ => True := by
      intro first hfirst
      unfold found
      extract_lets -underBinder lastDel cut
      have hcut : ∀ p : Option RecId × Option RecId, (∀ r ∈ p.2, r < k) → Keeps k (cut p) fun _ => True := by
        intro p hrest
        unfold cut
        split
        extract_lets -underBinder joined
        have hjoined : ∀ p : Option RecId × Option RecId, (∀ r ∈ p.1, r < k) → Keeps k (joined p) fun _ => True := by
          intro p hfront
          unfold joined
          split
          extract_lets -underBinder placed
          have hplaced : ∀ u, Keeps k (placed u) fun _ => True := by
            intro u
            unfold placed
            extract_lets -underBinder done
            refine keeps_ite (fun _ => ?_) fun _ => keeps_pure trivial
            split
            · exact keeps_throw _
            · refine (keeps_node _).bind fun n _ => ?_
              extract_lets -underBinder tracked
              have htracked : ∀ u, Keeps k (tracked u) fun _ => True := by
                intro u
                unfold tracked
                split
                · refine (hsib _ ?_).bind fun _ _ => keeps_pure trivial
                  simpa [Sib.up] using hp
                · exact keeps_pure trivial
              refine keeps_ite (fun _ => ?_) fun _ => htracked ()
              refine Keeps.bind (P := fun _ => True) ?_ fun u _ => htracked u
              exact keeps_update (fun _ => ⟨rfl, rfl, rfl, rfl⟩) fun _ hn => ⟨hn.first, hn.sib⟩
          split
          · refine (hsib _ ?_).bind fun _ _ => keeps_ite (fun _ => ?_) fun _ => hplaced ()
            · simpa [Sib.next] using hfront
            · split
              · exact (keeps_throw (P := fun _ => True) _).bind fun u _ => hplaced u
              · refine (hsib _ ?_).bind fun u _ => hplaced u
                simpa [Sib.up] using hp
          · refine keeps_need.bind fun _ _ => Keeps.bind (P := fun _ => True) ?_ fun u _ => hplaced u
            exact keeps_update (fun _ => ⟨rfl, rfl, rfl, rfl⟩) fun _ hn => ⟨hfront, hn.sib⟩
        split
        · refine keeps_get.bind fun a ha => (hsib _ ?_).bind fun _ _ => ?_
          · simpa [Sib.next] using hrest
          · exact (keeps_pure (P := fun p : Option RecId × Option RecId => ∀ r ∈ p.1, r < k)
              (by simpa using hi)).bind hjoined
        · exact (keeps_pure (P := fun p : Option RecId × Option RecId => ∀ r ∈ p.1, r < k)
            (by simpa using hrest)).bind hjoined
      clear_value lastDel
      cases lastDel with
      | some f =>
        refine keeps_get.bind fun a ha => (hsib _ (by simp)).bind fun _ _ => ?_
        exact (keeps_pure (P := fun p : Option RecId × Option RecId => ∀ r ∈ p.2, r < k)
          (ha.linked _).sibling).bind hcut
      | none =>
        exact (keeps_pure (P := fun p : Option RecId × Option RecId => ∀ r ∈ p.2, r < k) hfirst).bind hcut
    split
    · exact (keeps_node _).bind fun n hn => (keeps_pure hn.sibling).bind hfound
    · exact (keeps_throw (P := fun o : Option RecId => ∀ r ∈ o, r < k) _).bind hfound
    · exact (keeps_node _).bind fun n hn => (keeps_pure hn.first).bind hfound
  exact keeps_ite (fun _ => (keeps_throw (P := fun _ => True) _).bind fun u _ => hcounted u) fun _ => hcounted ()

theorem keeps_free {r : RecId} (hr : r < k) : Keeps k (free r) fun _ => True := by
  intro a ha
  refine ⟨?_, fun _ _ _ => trivial⟩
  obtain ⟨g, fs, hacc⟩ := ha.accounts
  have hslab : (a.node r).static = false := (ha.carved hr).slab
  by_cases hfreed : (a.node r).code = .freed
  · have heq : free r a = .ok () a := by
      simp only [free, bind_apply, node_apply, ite_apply, hfreed, if_true, pure_apply]
    rw [after, heq]
    exact ha
  · have heq : free r a = .ok () (a.free g r) := by
      simp only [free, freeInGroup, bind_apply, node_apply, ite_apply, hfreed, if_false, hslab, get_apply,
        hacc.group]
      rfl
    rw [after, heq]
    exact ha.free hacc.group hr hfreed

theorem keeps_destroy (r : RecId) : Keeps k (destroy r) fun _ => True := by
  refine keeps_update (fun n => ?_) fun n hn => ?_
  · unfold Node.destroyed
    split <;> exact ⟨rfl, rfl, rfl, rfl⟩
  · unfold Node.destroyed
    split
    · exact hn
    · exact ⟨hn.first, hn.sib⟩

theorem keeps_kids (r : RecId) : Keeps k (kids r) fun ks => ∀ q ∈ ks, q < k := by
  intro a ha
  refine ⟨ha, fun v b hok => ?_⟩
  cases hok
  exact ha.kids r

theorem keeps_freeStack {fuel : Nat} {stack : List RecId} (hs : ∀ r ∈ stack, r < k) :
    Keeps k (freeStack fuel stack) fun _ => True := by
  induction fuel generalizing stack with
  | zero =>
    cases stack with
    | nil => exact keeps_pure trivial
    | cons r stack => exact keeps_throw _
  | succ fuel ih =>
    cases stack with
    | nil => exact keeps_pure trivial
    | cons r stack =>
      have hr : r < k := hs r (List.mem_cons_self ..)
      have hstack : ∀ q ∈ stack, q < k := fun q hq => hs q (List.mem_cons_of_mem r hq)
      unfold freeStack
      refine (keeps_node r).bind fun n _ => keeps_ite (fun _ => ih hstack) fun _ => ?_
      extract_lets -underBinder counted walk
      have hwalk : ∀ u, Keeps k (walk u) fun _ => True := by
        intro u
        unfold walk
        refine keeps_ite (fun _ => ih hstack) fun _ => ?_
        refine (keeps_kids r).bind fun ks hks => (keeps_destroy r).bind fun _ _ => ?_
        refine (keeps_free hr).bind fun _ _ => ih fun q hq => ?_
        rcases List.mem_append.mp hq with hq | hq
        · exact hks q (List.mem_reverse.mp hq)
        · exact hstack q hq
      refine keeps_ite (fun _ => ?_) fun _ => hwalk ()
      refine Keeps.bind (P := fun _ => True) ?_ fun u _ => hwalk u
      exact keeps_update (fun _ => ⟨rfl, rfl, rfl, rfl⟩) fun _ hn => ⟨hn.first, hn.sib⟩

theorem keeps_freeTree {r : RecId} (hr : r < k) : Keeps k (freeTree r) fun _ => True :=
  keeps_get.bind fun a _ => keeps_freeStack (by simpa using hr)

theorem keeps_pin {r : RecId} (hr : r < k) : Keeps k (pin r) fun _ => True := by
  intro a ha
  refine ⟨?_, fun _ _ _ => trivial⟩
  obtain ⟨g, fs, hacc⟩ := ha.accounts
  have hslab : (a.node r).static = false := (ha.carved hr).slab
  have hgroup : (a.update r fun n => { n with pinned := true }).group? = some g := hacc.group
  rw [after, pin, bind_of_ok (node_apply r a)]
  by_cases hpin : (a.node r).pinned = true
  · rw [if_pos hpin]
    exact ha
  · rw [if_neg hpin, bind_of_ok (update_apply ..), hslab]
    simp only [Bool.not_false, if_true]
    rw [retain, bind_of_ok (group_apply hgroup)]
    refine ha.pin hacc.group ?_
    obtain ⟨ps, hps, hlen⟩ := hacc.pinned
    refine ⟨r :: ps, fun q hq hp => ?_, ?_⟩
    · rw [size_update] at hq
      by_cases he : q = r
      · exact he ▸ List.mem_cons_self ..
      · rw [node_update_of_ne he] at hp
        exact List.mem_cons_of_mem _ (hps q hq hp)
    · rw [List.length_cons]
      omega

/-- The reference that unpinning gives up is not the last one: the owner still has its own. -/
theorem keeps_unpin {r : RecId} (hr : r < k) : Keeps k (unpin r) fun _ => True := by
  intro a ha
  refine ⟨?_, fun _ _ _ => trivial⟩
  obtain ⟨g, fs, hacc⟩ := ha.accounts
  have hslab : (a.node r).static = false := (ha.carved hr).slab
  have hgroup : (a.update r fun n => { n with pinned := false }).group? = some g := hacc.group
  rw [after, unpin, bind_of_ok (node_apply r a)]
  by_cases hpin : (!(a.node r).pinned) = true
  · rw [if_pos hpin]
    exact ha
  · obtain ⟨ps, hps, hlen⟩ := hacc.pinned
    have hmem : r ∈ ps := hps r (ha.size.symm ▸ hr) (by simpa using hpin)
    have hpos : 0 < ps.length := List.length_pos_of_mem hmem
    have hrefs : 0 < g.refs - 1 := by omega
    rw [if_neg hpin, bind_of_ok (update_apply ..), hslab]
    simp only [Bool.not_false, if_true]
    have hset : ∀ b : Arena, setGroup { g with refs := g.refs - 1 } b =
        .ok () { b with group? := some { g with refs := g.refs - 1 } } := fun _ => rfl
    rw [release, bind_of_ok (group_apply hgroup), bind_of_ok (hset _)]
    rw [if_neg (Int.not_lt.mpr (Int.le_of_lt hrefs)), if_neg (Int.ne_of_gt hrefs)]
    refine ha.pin hacc.group ⟨ps.erase r, fun q hq hp => ?_, ?_⟩
    · rw [size_update] at hq
      by_cases he : q = r
      · subst he
        rw [node_update_self hq] at hp
        cases hp
      · rw [node_update_of_ne he] at hp
        exact (List.mem_erase_of_ne he).mpr (hps q hq hp)
    · rw [List.length_erase_of_mem hmem]
      omega

theorem alloc_cases {a : Arena} {g : Group} (hg : a.group? = some g) (hr : g.released = false) (size : Int) :
    (∃ e, alloc size a = .error e a) ∨ alloc size a = .ok (a.alloc g size).1 (a.alloc g size).2 := by
  simp only [alloc, bind_apply, get_apply, hg, hr, Bool.false_eq_true, if_false, ite_apply]
  split
  · exact Or.inl ⟨_, rfl⟩
  · exact Or.inr rfl

theorem new_sound {a : Arena} {t : Opcode} (ht : t ≠ .freed) (fl : Flags) (ha : a.Sound k) :
    ∃ k', ((new t fl).after a).Sound k' := by
  obtain ⟨g, fs, hacc⟩ := ha.accounts
  rcases alloc_cases hacc.group hacc.kept t.size with ⟨e, herr⟩ | hok
  · refine ⟨k, ?_⟩
    rw [after, new, bind_apply, herr]
    exact ha
  generalize hb : a.alloc g t.size = p at hok
  obtain ⟨r, b⟩ := p
  have hblank := hacc.freeList.alloc hacc.group hb
  have hgot := hacc.alloc hb
  obtain ⟨static, size, hnode⟩ := hblank.blank
  obtain ⟨g', fs', hacc'⟩ := hgot.accounts
  have hseq : ({ b with seq := b.seq + 1 } : Arena).Accounts g' fs' :=
    hacc'.amend hacc'.group rfl (fun _ => rfl) hacc'.carved hacc'.pinned
  have hcode : ({ b with seq := b.seq + 1 } : Arena).node r = { static := static, size := size } := hnode
  have hsize : (t.size : Int) ≤ size := by
    have := hgot.size
    rw [hnode] at this
    exact Int.le_trans (Int.le_max_left ..) this
  have hnew : (new t fl).after a = Arena.update { b with seq := b.seq + 1 } r fun n =>
      { n with code := t, flags := fl, id := b.seq + 1 } := by
    rw [after, new, bind_of_ok hok]
    rfl
  rw [hnew]
  refine ⟨b.recs.size, size_update .., ⟨g', fs', hseq.update ?_ ?_ fun hr => ?_⟩, fun q hq hl => ?_⟩
  · rw [hcode]
    simp [Node.entry, ht]
  · rfl
  · have hc := hseq.carved r hr
    exact ⟨⟨hc.first, hc.sib⟩, hc.slab⟩
  · by_cases he : q = r
    · subst he
      rw [node_update_self (a := { b with seq := b.seq + 1 }) hq, hcode]
      exact hsize
    · have hother : ∀ f, (Arena.update { b with seq := b.seq + 1 } r f).node q = b.node q :=
        fun f => node_update_of_ne he f
      rw [hother] at hl ⊢
      obtain ⟨hlt, hqc, hqs⟩ := hgot.live q he hq hl
      rw [hqc, hqs]
      rw [hqc] at hl
      exact ha.fits q (ha.size ▸ hlt) hl

end TreeM

inductive Request where
  | new (t : Opcode) (fl : Flags)
  | splice (parent start : Option RecId) (del : Int) (insert : Option RecId)
  | free (r : RecId)
  | freeTree (r : RecId)
  | pin (r : RecId)
  | unpin (r : RecId)

namespace Request

def run : Request → TreeM Unit
  | new t fl => (fun _ => ()) <$> TreeM.new t fl
  | splice parent start del insert => (fun _ => ()) <$> TreeM.splice parent start del insert
  | free r => TreeM.free r
  | freeTree r => TreeM.freeTree r
  | pin r => TreeM.pin r
  | unpin r => TreeM.unpin r

def names : Request → List RecId
  | new _ _ => []
  | splice parent start _ insert => parent.toList ++ start.toList ++ insert.toList
  | free r | freeTree r | pin r | unpin r => [r]

/-- Only records that there are may be named, and no op is made as a freed one. -/
structure Valid (q : Request) (a : Arena) : Prop where
  named : ∀ r ∈ q.names, r < a.recs.size
  live : ∀ fl, q ≠ .new .freed fl

theorem run_sound {q : Request} {a : Arena} {k : Nat} (ha : a.Sound k) (hq : q.Valid a) :
    ∃ k', (q.run.after a).Sound k' := by
  have hnamed := hq.named
  rw [ha.size] at hnamed
  cases q with
  | new t fl =>
    obtain ⟨k', hk⟩ := TreeM.new_sound (fun he => hq.live fl (he ▸ rfl)) fl ha
    rw [run, TreeM.after_map]
    exact ⟨k', hk⟩
  | splice parent start del insert =>
    rw [run, TreeM.after_map]
    refine ⟨k, (TreeM.keeps_splice del ?_ ?_ ha).1⟩
    · intro r hr
      exact hnamed r (by simp [names, Option.mem_def.mp hr])
    · intro r hr
      exact hnamed r (by simp [names, Option.mem_def.mp hr])
  | free r => exact ⟨k, (TreeM.keeps_free (hnamed r (by simp [names])) ha).1⟩
  | freeTree r => exact ⟨k, (TreeM.keeps_freeTree (hnamed r (by simp [names])) ha).1⟩
  | pin r => exact ⟨k, (TreeM.keeps_pin (hnamed r (by simp [names])) ha).1⟩
  | unpin r => exact ⟨k, (TreeM.keeps_unpin (hnamed r (by simp [names])) ha).1⟩

end Request

namespace Arena

/-- The arenas that requests to an empty group lead to, those that failed included. -/
inductive Served (t : Tuning) : Arena → Prop where
  | empty {a : Arena} : a.recs = #[] → a.group? = some { tune := t } → Served t a
  | next {a : Arena} {q : Request} : Served t a → q.Valid a → Served t (q.run.after a)

theorem sound_of_empty {a : Arena} {t : Tuning} (ha : a.recs = #[]) (hg : a.group? = some { tune := t }) :
    a.Sound 0 := by
  have hsize : a.recs.size = 0 := by rw [ha]; rfl
  refine ⟨hsize, ⟨_, [], hg, rfl, rfl, List.nodup_nil, ?_, rfl, ?_, rfl, ⟨?_, ?_⟩, ?_, ⟨[], ?_, by simp⟩⟩, ?_⟩
  · intro r
    simp [hsize]
  · rw [hsize]
    rfl
  · intro s hs
    cases hs
  · rw [hsize]
    rfl
  · intro r hr
    rw [hsize] at hr
    cases hr
  · intro r hr
    rw [hsize] at hr
    cases hr
  · intro r hr
    cases hr

theorem Served.sound {t : Tuning} {a : Arena} (h : Served t a) : ∃ k, a.Sound k := by
  induction h with
  | empty ha hg => exact ⟨0, sound_of_empty ha hg⟩
  | next _ hq ih =>
    obtain ⟨k, hk⟩ := ih
    exact Request.run_sound hk hq

theorem Accounts.live_eq {a : Arena} {g : Group} {fs : List RecId} (h : a.Accounts g fs) :
    g.live = (List.range a.recs.size).countP fun r => (a.node r).code ≠ .freed := by
  have hperm : fs.Perm ((List.range a.recs.size).filter fun r => (a.node r).code = .freed) := by
    refine (List.perm_ext_iff_of_nodup h.nodup (List.nodup_range.filter _)).mpr fun r => ?_
    simp [h.mem_iff]
  have hlen := hperm.length_eq
  have hall := List.length_eq_countP_add_countP (fun r => decide ((a.node r).code = .freed))
    (l := List.range a.recs.size)
  have hlive := h.live
  rw [← List.countP_eq_length_filter] at hlen
  rw [List.length_range] at hall
  simp only [decide_not, decide_eq_true_eq] at hall ⊢
  omega

/-- The accounts of every group that is served. -/
theorem served_accounts {t : Tuning} {a : Arena} (h : Served t a) :
    ∃ g fs, a.group? = some g ∧ g.released = false ∧
      g.total = g.liveUnits + (fs.map fun r => (a.node r).size).sum + g.room ∧
      g.live = (List.range a.recs.size).countP (fun r => (a.node r).code ≠ .freed) ∧
      g.freeCount = fs.length ∧ a.FreeList fs ∧ (∀ r ∈ fs, (a.node r).static = false) ∧
      (∀ s ∈ g.slabs, (s.count : Int) ≤ s.units) ∧ (g.slabs.map Slab.count).sum = a.recs.size ∧
      (∀ r < a.recs.size, (a.node r).code ≠ .freed → ((a.node r).code.size : Int) ≤ (a.node r).size) ∧
      ∀ size r b, TreeM.alloc size a = .ok r b → size ≤ (b.node r).size := by
  obtain ⟨k, hk⟩ := h.sound
  obtain ⟨g, fs, hacc⟩ := hk.accounts
  refine ⟨g, fs, hacc.group, hacc.kept, hacc.units, hacc.live_eq, hacc.count, hacc.freeList, ?_, ?_,
    hacc.packed.count, ?_, ?_⟩
  · intro r hr
    exact (hacc.carved r (hacc.freeList.lt r hr)).slab
  · intro s hs
    obtain ⟨hcount, hused⟩ := hacc.packed.slab s hs
    exact Int.le_trans hcount hused
  · intro r hr
    exact hk.fits r (hk.size ▸ hr)
  · intro size r b hok
    rcases TreeM.alloc_cases hacc.group hacc.kept size with ⟨e, herr⟩ | heq
    · rw [herr] at hok
      cases hok
    · rw [heq] at hok
      injection hok with hr hb
      have hgot := hacc.alloc (Prod.ext hr hb)
      exact Int.le_trans (Int.le_max_left ..) hgot.size

/-- A record that is freed twice is on the free list once. -/
theorem served_accounts_freed_twice : ∃ a g fs, Served {} a ∧ a.group? = some g ∧ a.FreeList fs ∧ fs.length = 1 := by
  have hnew := (Served.empty (t := {}) (a := { group? := some {} }) rfl rfl).next (q := .new .const 0)
    ⟨by decide, fun _ => nofun⟩
  have hpair := hnew.next (q := .new .padsv 0) ⟨by decide, fun _ => nofun⟩
  have hfree := hpair.next (q := .free 0) ⟨by decide, fun _ => nofun⟩
  have htwice := hfree.next (q := .free 0) ⟨by decide, fun _ => nofun⟩
  obtain ⟨g, fs, hg, -, -, -, hcount, hlist, -⟩ := served_accounts htwice
  have hone : some g.freeCount = some 1 := (congrArg (Option.map Group.freeCount) hg).symm.trans (by decide)
  have hlen : g.freeCount = 1 := Option.some.inj hone
  exact ⟨_, g, fs, htwice, hg, hlist, by omega⟩

end Arena

end OpTree
