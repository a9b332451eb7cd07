import OpTree.Proofs.PrintedTrials

/-!
# Trials

A trial runs a chain on a machine of its own: without a pad, in scalar context and with warnings that
fail. If it ends well, the same ops end well on any machine that treats warnings alike. They find
scalars of the same values on top of its stack and leave the rest as it is.
-/

namespace OpTree

set_option autoImplicit false

namespace Exec

open Machine

section Stack

variable {b m n : Machine} {xs ys : List Item} {ks : List Nat}

theorem forall₂_snoc_left {α β : Type} {R : α → β → Prop} {x : α} {xs : List α} {ys : List β}
    (h : List.Forall₂ R (xs ++ [x]) ys) : ∃ zs y, ys = zs ++ [y] ∧ List.Forall₂ R xs zs ∧ R x y := by
  rw [← List.forall₂_reverse_iff, List.reverse_append, List.reverse_singleton, List.singleton_append,
    List.forall₂_cons_left_iff] at h
  obtain ⟨y, zs, hxy, hrest, hys⟩ := h
  refine ⟨zs.reverse, y, ?_, ?_, hxy⟩
  · rw [← List.reverse_reverse ys, hys, List.reverse_cons]
  · rw [← List.forall₂_reverse_iff, List.reverse_reverse]
    exact hrest

theorem resetStack_has {sp : Nat} (h : m.Has ⟨xs, ks⟩) (hsp : sp ≤ xs.length) :
    ∃ k, resetStack sp m = .ok () k ∧ k.offStack = m.offStack ∧ k.heap = m.heap ∧
      k.Has ⟨xs.take sp, ks.dropWhile (sp < ·)⟩ := by
  have hroom := h.room
  have hlen : xs.length = m.height := h.length
  have hle : sp ≤ m.slots.size := by omega
  refine ⟨{ m with height := sp, marks := m.marks.dropWhile (sp < ·) }, ?_, rfl, rfl, hle, ?_, ?_⟩
  · unfold resetStack
    rw [bind_of_ok (rfl : (get : Exec Machine) m = .ok m m), if_pos hle]
    rfl
  · have hstack := h.stack
    rw [stack_eq] at hstack ⊢
    change m.slots.toList.take sp = xs.take sp
    rw [← show m.slots.toList.take m.height = xs from hstack, List.take_take, Nat.min_eq_left (by omega)]
  · change m.marks.dropWhile _ = ks.dropWhile _
    rw [show m.marks = ks from h.marks]

theorem itemsFrom_has {sp : Nat} (h : m.Has ⟨xs, ks⟩) (hsp : sp ≤ xs.length) :
    itemsFrom sp m = .ok (xs.drop sp) m := by
  have hlen : xs.length = m.height := h.length
  have hstack : m.stack = xs := h.stack
  unfold itemsFrom
  rw [bind_of_ok (rfl : (get : Exec Machine) m = .ok m m), if_neg (by omega)]
  change EStateM.Result.ok _ m = _
  rw [← hstack, stack_eq, Array.toList_extract, List.extract, List.drop_take]

theorem popMark_has {k : Nat} (h : m.Has ⟨xs, k :: ks⟩) :
    ∃ n, popMark m = .ok (min k xs.length) n ∧ n.offStack = m.offStack ∧ n.heap = m.heap ∧ n.Has ⟨xs, ks⟩ := by
  have hmarks : m.marks = k :: ks := h.marks
  have hlen : xs.length = m.height := h.length
  refine ⟨{ m with marks := ks }, ?_, rfl, rfl, h.room, h.stack, rfl⟩
  unfold popMark
  rw [bind_of_ok (rfl : (get : Exec Machine) m = .ok m m)]
  simp only [hmarks, hlen]
  rfl

/-- Marks of the base are not above the stack, so cutting the part above it leaves them. -/
theorem dropWhile_base {b sp : Nat} {ks bs : List Nat} (hb : ∀ k ∈ bs, k ≤ b) :
    (ks.map (b + ·) ++ bs).dropWhile (b + sp < ·) = (ks.dropWhile (sp < ·)).map (b + ·) ++ bs := by
  induction ks with
  | nil =>
    cases bs with
    | nil => rfl
    | cons k bs =>
      have hk := hb k (by simp)
      simp only [List.map_nil, List.nil_append, List.dropWhile_nil]
      rw [List.dropWhile_cons_of_neg]
      simp only [decide_eq_true_eq]
      omega
  | cons k ks ih =>
    simp only [List.map_cons, List.cons_append]
    by_cases hk : sp < k
    · rw [List.dropWhile_cons_of_pos (by simpa using hk), List.dropWhile_cons_of_pos (by simpa using hk), ih]
    · rw [List.dropWhile_cons_of_neg (by simpa using hk), List.dropWhile_cons_of_neg (by simpa using hk)]
      rfl

variable (b)

theorem follows_pop {F : Heap → Heap → Prop} :
    Follows (fun m n => Tracks b m n ∧ F m.heap n.heap) popScalar popScalar
      fun c d m n => (Tracks b m n ∧ F m.heap n.heap) ∧ Heap.Alike m.heap n.heap (.scalar c) (.scalar d) := by
  rintro m n ⟨⟨xs, ys, ks, hm⟩, hF⟩ u m' hok
  rcases List.eq_nil_or_concat' xs with rfl | ⟨zs, x, rfl⟩
  · have hzero : m.height = 0 := hm.left.length.symm
    unfold popScalar pop at hok
    obtain ⟨x, m₁, hpop, -⟩ := bind_eq_ok.mp hok
    rw [bind_of_ok (rfl : (get : Exec Machine) m = .ok m m), if_pos hzero] at hpop
    cases hpop
  · obtain ⟨zs', y, rfl, halike, c, d, rfl, rfl, hc, hd, hv⟩ := forall₂_snoc_left hm.alike
    obtain ⟨m₁, hpop, hoff, hhas⟩ := popScalar_has hm.left
    have hright := hm.right
    rw [← List.append_assoc] at hright
    obtain ⟨n₁, hpop', hoff', hhas'⟩ := popScalar_has hright
    rw [hpop] at hok
    cases hok
    refine ⟨some d, n₁, hpop', ⟨⟨zs, zs', ks, hm.restack hoff hoff' hhas hhas' halike⟩, ?_⟩, ?_⟩
    · rwa [heap_of_offStack hoff, heap_of_offStack hoff']
    · rw [heap_of_offStack hoff, heap_of_offStack hoff']
      exact ⟨c, d, rfl, rfl, hc, hd, hv⟩

theorem follows_push {x y : Item} :
    Follows (fun m n => Tracks b m n ∧ Heap.Alike m.heap n.heap x y) (push x) (push y) fun _ _ m n => Tracks b m n := by
  rintro m n ⟨⟨xs, ys, ks, hm⟩, ha⟩ u m' hok
  obtain ⟨m₁, hpush, hoff, hhas⟩ := push_has x hm.left
  obtain ⟨n₁, hpush', hoff', hhas'⟩ := push_has y hm.right
  rw [hpush] at hok
  cases hok
  rw [List.append_assoc] at hhas'
  exact ⟨(), n₁, hpush', _, _, _, hm.restack hoff hoff' hhas hhas' (List.rel_append hm.alike (.cons ha .nil))⟩

def Above (b : Machine) (k : Nat) (m n : Machine) : Prop := ∃ xs ys ks, Mirrors b xs ys ks m n ∧ k ≤ xs.length

theorem above_zero {m n : Machine} : Above b 0 m n ↔ Tracks b m n := by
  refine ⟨fun ⟨xs, ys, ks, hm, _⟩ => hm.tracks, fun ⟨xs, ys, ks, hm⟩ => ⟨xs, ys, ks, hm, Nat.zero_le _⟩⟩

theorem follows_newCell (k : Nat) (v : Value) (ro : Bool) :
    Follows (Above b k) (onHeap fun h => h.newCell v ro) (onHeap fun h => h.newCell v ro) fun c d m n =>
      Above b k m n ∧ Heap.Alike m.heap n.heap (.scalar (some c)) (.scalar (some d)) := by
  rintro m n ⟨xs, ys, ks, hm, hk⟩ u m' hok
  cases hok
  refine ⟨_, _, rfl, ⟨xs, ys, ks, hm.move rfl rfl (m.heap.grown_newCell v ro) (n.heap.grown_newCell v ro) ?_ ?_ ?_,
    hk⟩, _, _, rfl, rfl, ?_, ?_, ?_⟩
  · exact hm.left.withHeap _
  · exact hm.right.withHeap _
  · exact hm.alike_grown (m.heap.grown_newCell v ro) (n.heap.grown_newCell v ro)
  · simp
  · simp
  · exact congrArg Cell.value ((n.heap.cell_newCell v ro).trans (m.heap.cell_newCell v ro).symm)

theorem follows_pushNew (v : Value) (ro : Bool) :
    Follows (Tracks b) (do pushCell (← onHeap fun h => h.newCell v ro)) (do pushCell (← onHeap fun h => h.newCell v ro))
      fun _ _ m n => Tracks b m n := by
  have hnew := (follows_newCell b 0 v ro).bind fun c d => (follows_push b).pre fun m n hm =>
    (⟨(above_zero b).mp hm.1, hm.2⟩ : Tracks b m n ∧ Heap.Alike m.heap n.heap (.scalar (some c)) (.scalar (some d)))
  exact hnew.pre fun m n hm => (above_zero b).mpr hm

theorem follows_cellFor {o : Node} (hc : o.code = .const) (hkeeps : b.Keeps o) :
    Follows (Above b 0) (cellFor o) (cellFor o) fun c d m n =>
      Above b 0 m n ∧ Heap.Alike m.heap n.heap (.scalar (some c)) (.scalar (some d)) := by
  rintro m n ⟨xs, ys, ks, hm, hk⟩ u m' hok
  rw [cellFor_of_none (congrFun hm.strict.alone o.id)] at hok
  have hkept : n.kept = b.kept := (congrArg Machine.kept hm.rest :)
  cases hd : b.kept o.id with
  | none =>
    rw [cellFor_of_none (by rw [hkept, hd])]
    exact follows_newCell b 0 o.val.value true m n ⟨xs, ys, ks, hm, hk⟩ u m' hok
  | some d =>
    obtain ⟨hlt, hvalue⟩ := hkeeps hc d hd
    have hgrown := m.heap.grown_newCell o.val.value true
    cases hok
    refine ⟨d, n, cellFor_of_some (by rw [hkept, hd]), ⟨xs, ys, ks, ?_, hk⟩, _, d, rfl, rfl, ?_, ?_, ?_⟩
    · exact hm.move rfl rfl hgrown (.refl _) (hm.left.withHeap _) hm.right (hm.alike_grown hgrown (.refl _))
    · simp
    · exact Nat.lt_of_lt_of_le hlt hm.grown.size_le
    · rw [hm.grown.cell hlt, hvalue]
      exact (congrArg Cell.value (m.heap.cell_newCell o.val.value true)).symm

theorem follows_constant {o : Node} (hc : o.code = .const) (hkeeps : b.Keeps o) :
    Follows (Tracks b) (constant o) (constant o) fun _ _ m n => Tracks b m n := by
  have hpush := (follows_cellFor b hc hkeeps).bind fun c d => (follows_push b).pre fun m n hm =>
    (⟨(above_zero b).mp hm.1, hm.2⟩ : Tracks b m n ∧ Heap.Alike m.heap n.heap (.scalar (some c)) (.scalar (some d)))
  exact hpush.pre fun m n hm => (above_zero b).mpr hm

theorem follows_pushValue (v : Value) :
    Follows (Tracks b) (pushValue v) (pushValue v) fun _ _ m n => Tracks b m n := follows_pushNew b v false

theorem follows_pushBool (v : Bool) :
    Follows (Tracks b) (pushBool v) (pushBool v) fun _ _ m n => Tracks b m n := by
  refine (follows_push b).pre fun m n hm => ⟨hm, ?_⟩
  obtain ⟨xs, ys, ks, hm⟩ := hm
  have hn := hm.base.truths.grown hm.grown
  have hlt : ofBool v < 2 := by cases v <;> decide
  refine ⟨_, _, rfl, rfl, Nat.lt_of_lt_of_le hlt hm.truths.size, Nat.lt_of_lt_of_le hlt hn.size, ?_⟩
  rw [hm.truths.ofBool, hn.ofBool]

theorem follows_pushMark : Follows (Tracks b) pushMark pushMark fun _ _ m n => Tracks b m n := by
  rintro m n ⟨xs, ys, ks, hm⟩ u m' hok
  cases hok
  have hleft : xs.length = m.height := hm.left.length
  have hright := hm.right.length
  simp only [List.length_append, length_stack hm.base.room, ← hm.alike.length_eq, hleft] at hright
  refine ⟨(), _, rfl, xs, ys, m.height :: ks, hm.move rfl rfl (.refl _) (.refl _) ?_ ?_ hm.alike⟩
  · exact ⟨hm.left.room, hm.left.stack, congrArg (m.height :: ·) hm.left.marks⟩
  · refine ⟨hm.right.room, hm.right.stack, ?_⟩
    change n.height :: n.marks = (b.height + m.height) :: (ks.map (b.height + ·) ++ b.marks)
    rw [hright, show n.marks = _ from hm.right.marks]

theorem follows_popMark :
    Follows (Tracks b) popMark popMark fun u v m n => Above b u m n ∧ v = b.height + u := by
  rintro m n ⟨xs, ys, ks, hm⟩ u m' hok
  cases ks with
  | nil =>
    have hmarks : m.marks = [] := hm.left.marks
    unfold popMark at hok
    rw [bind_of_ok (rfl : (get : Exec Machine) m = .ok m m)] at hok
    simp only [hmarks] at hok
    cases hok
  | cons k ks =>
    obtain ⟨m₁, hpop, hoff, -, hhas⟩ := popMark_has hm.left
    obtain ⟨n₁, hpop', hoff', -, hhas'⟩ := popMark_has hm.right
    rw [hpop] at hok
    cases hok
    refine ⟨_, n₁, hpop', ⟨xs, ys, ks, hm.restack hoff hoff' hhas hhas' hm.alike, Nat.min_le_right ..⟩, ?_⟩
    rw [List.length_append, length_stack hm.base.room, ← hm.alike.length_eq, Nat.add_min_add_left]

variable {b} {k : Nat}

theorem follows_itemsFrom :
    Follows (Above b k) (itemsFrom k) (itemsFrom (b.height + k)) fun us vs m n =>
      Above b k m n ∧ List.Forall₂ (Heap.Alike m.heap n.heap) us vs := by
  rintro m n ⟨xs, ys, ks, hm, hk⟩ u m' hok
  have hlen : b.stack.length = b.height := length_stack hm.base.room
  rw [itemsFrom_has hm.left hk] at hok
  cases hok
  have hk' : b.height + k ≤ (b.stack ++ ys).length := by
    rw [List.length_append, hlen, ← hm.alike.length_eq]
    omega
  refine ⟨_, n, itemsFrom_has hm.right hk', ⟨xs, ys, ks, hm, hk⟩, ?_⟩
  rw [← hlen, List.drop_append, List.drop_of_length_le (Nat.le_add_right ..), List.nil_append, Nat.add_sub_cancel_left]
  exact List.forall₂_drop k hm.alike

theorem follows_resetStack {F : Heap → Heap → Prop} :
    Follows (fun m n => Above b k m n ∧ F m.heap n.heap) (resetStack k) (resetStack (b.height + k)) fun _ _ m n =>
      Tracks b m n ∧ F m.heap n.heap := by
  rintro m n ⟨⟨xs, ys, ks, hm, hk⟩, hF⟩ u m' hok
  have hlen : b.stack.length = b.height := length_stack hm.base.room
  obtain ⟨m₁, hreset, hoff, hheap, hhas⟩ := resetStack_has hm.left hk
  have hk' : b.height + k ≤ (b.stack ++ ys).length := by
    rw [List.length_append, hlen, ← hm.alike.length_eq]
    omega
  obtain ⟨n₁, hreset', hoff', hheap', hhas'⟩ := resetStack_has hm.right hk'
  rw [hreset] at hok
  cases hok
  rw [dropWhile_base hm.base.marks, ← hlen, List.take_append, List.take_of_length_le (Nat.le_add_right ..),
    Nat.add_sub_cancel_left, hlen] at hhas'
  refine ⟨(), n₁, hreset', ⟨_, _, _, hm.restack hoff hoff' hhas hhas' (List.forall₂_take k hm.alike)⟩, ?_⟩
  rwa [hheap, hheap']

theorem follows_scalars {P : Machine → Machine → Prop} {us vs : List Item} :
    Follows (fun m n => P m n ∧ List.Forall₂ (Heap.Alike m.heap n.heap) us vs)
      (us.mapM fun x => match x with
        | .scalar c => pure c
        | x => broken (utf8 "scalar expected in list, got " ++ x.typeName))
      (vs.mapM fun x => match x with
        | .scalar c => pure c
        | x => broken (utf8 "scalar expected in list, got " ++ x.typeName))
      fun cs ds m n => P m n ∧ List.Forall₂ (fun c d => n.heap.value d = m.heap.value c) cs ds := by
  rintro m n ⟨hm, ha⟩ u m' hok
  suffices h : m' = m ∧ ∃ ds, (vs.mapM fun x => match x with
      | .scalar c => pure c
      | x => broken (utf8 "scalar expected in list, got " ++ x.typeName) : Exec _) n = .ok ds n ∧
        List.Forall₂ (fun c d => n.heap.value d = m.heap.value c) u ds by
    obtain ⟨rfl, ds, hds, hv⟩ := h
    exact ⟨ds, n, hds, hm, hv⟩
  induction ha generalizing u with
  | nil =>
    cases hok
    exact ⟨rfl, [], rfl, .nil⟩
  | cons ha _ ih =>
    obtain ⟨c, d, rfl, rfl, -, -, hv⟩ := ha
    rw [List.mapM_cons, bind_of_ok (rfl : (pure (some c) : Exec _) m = .ok (some c) m)] at hok
    obtain ⟨cs, m₁, hcs, hend⟩ := bind_eq_ok.mp hok
    cases hend
    obtain ⟨rfl, ds, hds, hvs⟩ := ih cs hcs
    refine ⟨rfl, some d :: ds, ?_, .cons hv hvs⟩
    rw [List.mapM_cons, bind_of_ok (rfl : (pure (some d) : Exec _) n = .ok (some d) n), bind_of_ok hds]
    rfl

theorem follows_items : Follows (Tracks b) items items fun cs ds m n =>
    Tracks b m n ∧ List.Forall₂ (fun c d => n.value d = m.value c) cs ds := by
  refine (follows_popMark b).bind fun k k' => Follows.given ?_
  rintro rfl
  refine follows_itemsFrom.bind fun us vs => follows_scalars.bind fun cs ds => ?_
  exact (follows_resetStack (F := fun h h' => List.Forall₂ (fun c d => h'.value d = h.value c) cs ds)).bind
    fun _ _ => Follows.pure fun m n h => h

theorem wantOf_of_ne {o : Node} (h : o.want ≠ .unknown) (m : Machine) : wantOf o m = .ok o.want m := by
  unfold wantOf
  cases hw : o.want with
  | unknown => exact absurd hw h
  | _ => rfl

theorem Follows.want {o : Node} (ho : o.want ≠ .unknown) {P : Machine → Machine → Prop} {f : Want → Exec Unit}
    {g : Want → Exec Unit} {Q : Unit → Unit → Machine → Machine → Prop} (h : Follows P (f o.want) (g o.want) Q) :
    Follows P (wantOf o >>= f) (wantOf o >>= g) Q := by
  intro m n hm u m' hok
  rw [bind_of_ok (wantOf_of_ne ho m)] at hok
  rw [bind_of_ok (wantOf_of_ne ho n)]
  exact h m n hm u m' hok

theorem follows_listItems {o : Node} (ho : o.want ≠ .unknown) :
    Follows (Tracks b) (listItems o) (listItems o) fun _ _ m n => Tracks b m n := by
  refine (follows_popMark b).bind fun k k' => Follows.given ?_
  rintro rfl
  have hdrop : ∀ m n, Above b k m n → Tracks b m n := by
    rintro m n ⟨xs, ys, ks, hm, -⟩
    exact hm.tracks
  refine Follows.want ho ?_
  cases hw : o.want with
  | unknown => exact absurd hw ho
  | list => exact Follows.pure hdrop
  | void =>
    intro m n hm u m' hok
    obtain ⟨v, n', hn, h, -⟩ := (follows_resetStack (F := fun _ _ => True)) m n ⟨hm, trivial⟩ u m' hok
    exact ⟨v, n', hn, h⟩
  | scalar =>
    have hend : ∀ x y, Follows (fun m n => Above b k m n ∧ Heap.Alike m.heap n.heap x y)
        (do resetStack k; push x) (do resetStack (b.height + k); push y) fun _ _ m n => Tracks b m n :=
      fun x y => (follows_resetStack (F := fun h h' => Heap.Alike h h' x y)).bind fun _ _ => follows_push b
    refine follows_itemsFrom.bind fun us vs => ?_
    rintro m n ⟨hm, ha⟩ u m' hok
    rcases List.eq_nil_or_concat' us with rfl | ⟨us, x, rfl⟩
    · obtain rfl := List.forall₂_nil_left_iff.mp ha
      exact (follows_newCell b k .undefined false).bind (fun c d => hend _ _) m n hm u m' hok
    · obtain ⟨vs, y, rfl, -, hxy⟩ := forall₂_snoc_left ha
      rw [List.getLast?_concat] at hok ⊢
      exact hend x y m n ⟨hm, hxy⟩ u m' hok

theorem follows_popOne : Follows (Tracks b) popScalar popScalar fun c d m n =>
    Tracks b m n ∧ Heap.Alike m.heap n.heap (.scalar c) (.scalar d) := by
  intro m n hm u m' hok
  obtain ⟨v, n', hn, ⟨h, -⟩, hv⟩ := follows_pop b (F := fun _ _ => True) m n ⟨hm, trivial⟩ u m' hok
  exact ⟨v, n', hn, h, hv⟩

theorem follows_popPair : Follows (Tracks b) popPair popPair fun p q m n =>
    Tracks b m n ∧ n.value q.1 = m.value p.1 ∧ n.value q.2 = m.value p.2 := by
  refine follows_popOne.bind fun r r' => (follows_pop b (F := fun h h' => Heap.Alike h h' (.scalar r) (.scalar r'))).bind
    fun l l' => ?_
  exact Follows.pure fun m n h => ⟨h.1.1, h.2.value, h.1.2.value⟩

theorem follows_arith (op : ArithOp) (t : Opcode) :
    Follows (Tracks b) (arith op t) (arith op t) fun _ _ m n => Tracks b m n := by
  refine follows_popPair.bind fun p q => ?_
  refine Follows.read (fun m n h u m' hok => toNumber_strict h.1.strict h.2.1 hok) fun x => ?_
  refine Follows.read (fun m n h u m' hok => toNumber_strict h.1.strict h.2.2 hok) fun y => ?_
  cases op.apply x y with
  | ok v => exact (follows_pushValue b _).pre fun m n h => h.1
  | error e => exact Follows.never (throwAt_ne_ok _)

theorem follows_compareNumbers (t : Opcode) :
    Follows (Tracks b) (compareNumbers t) (compareNumbers t) fun _ _ m n => Tracks b m n := by
  refine follows_popPair.bind fun p q => ?_
  refine Follows.read (fun m n h u m' hok => toNumber_strict h.1.strict h.2.1 hok) fun x => ?_
  refine Follows.read (fun m n h u m' hok => toNumber_strict h.1.strict h.2.2 hok) fun y => ?_
  exact (follows_pushBool b _).pre fun m n h => h.1

theorem follows_texts (t : Opcode) {f : Bytes → Bytes → Exec Unit}
    (hf : ∀ x y, Follows (Tracks b) (f x y) (f x y) fun _ _ m n => Tracks b m n) :
    Follows (Tracks b) (do let (l, r) ← popPair; let x ← toText l t; let y ← toText r t; f x y)
      (do let (l, r) ← popPair; let x ← toText l t; let y ← toText r t; f x y) fun _ _ m n => Tracks b m n := by
  refine follows_popPair.bind fun p q => ?_
  refine Follows.read (fun m n h u m' hok => toText_strict h.1.strict h.2.1 hok) fun x => ?_
  refine Follows.read (fun m n h u m' hok => toText_strict h.1.strict h.2.2 hok) fun y => ?_
  exact (hf x y).pre fun m n h => h.1

theorem follows_flipped (t : Opcode) (flipped? : Option Bytes) (c d : Option CellId) :
    Follows (fun m n => Tracks b m n ∧ n.value d = m.value c)
      (match flipped? with
        | some s => pushValue (.str s)
        | none => do pushValue (← toNumber c t).negated.toValue)
      (match flipped? with
        | some s => pushValue (.str s)
        | none => do pushValue (← toNumber d t).negated.toValue) fun _ _ m n => Tracks b m n := by
  cases flipped? with
  | some s => exact (follows_pushValue b _).pre fun m n h => h.1
  | none =>
    refine Follows.read (fun m n h u m' hok => toNumber_strict h.1.strict h.2 hok) fun x => ?_
    exact (follows_pushValue b _).pre fun m n h => h.1

theorem follows_negate (t : Opcode) :
    Follows (Tracks b) (negate t) (negate t) fun _ _ m n => Tracks b m n := by
  refine follows_popOne.bind fun c d => ?_
  rintro m n ⟨hm, c, d, ⟨⟩, ⟨⟩, -, -, hv⟩ u m' hok
  rw [bind_of_ok (rfl : cellOf (some c) m = .ok (c, m.heap.cell c) m)] at hok
  rw [bind_of_ok (rfl : cellOf (some d) n = .ok (d, n.heap.cell d) n)]
  simp only [hv]
  exact follows_flipped t _ (some c) (some d) m n ⟨hm, hv⟩ u m' hok

theorem follows_not : Follows (Tracks b) logicalNot logicalNot fun _ _ m n => Tracks b m n := by
  refine follows_popOne.bind fun c d => ?_
  refine Follows.read (fun m n h u m' hok => ?_) fun v => (follows_pushBool b _).pre fun m n h => h.1
  rw [valueOf_apply] at hok
  cases hok
  exact ⟨rfl, (valueOf_apply d n).trans (congrArg (EStateM.Result.ok · n) h.2.value)⟩

theorem follows_changeCase (t : Opcode) :
    Follows (Tracks b) (changeCase t) (changeCase t) fun _ _ m n => Tracks b m n := by
  refine follows_popOne.bind fun c d => ?_
  refine Follows.read (fun m n h u m' hok => toText_strict h.1.strict h.2.value hok) fun x => ?_
  exact (follows_pushValue b _).pre fun m n h => h.1

theorem follows_formatItems (t : Opcode) :
    Follows (Tracks b) (formatItems t) (formatItems t) fun _ _ m n => Tracks b m n := by
  refine follows_items.bind fun cs ds => ?_
  rintro m n ⟨hm, hv⟩
  cases hv with
  | nil => exact follows_pushValue b _ m n hm
  | cons hf hargs =>
    rename_i c d cs ds
    have hprint : Follows (fun m n => Tracks b m n ∧ n.value d = m.value c ∧
          List.Forall₂ (fun c d => n.value d = m.value c) cs ds)
        (do let format ← toText c t; pushValue (.str (← sprintf format cs)))
        (do let format ← toText d t; pushValue (.str (← sprintf format ds))) fun _ _ m n => Tracks b m n := by
      refine Follows.read (fun m n h u m' hok => toText_strict h.1.strict h.2.1 hok) fun x => ?_
      refine Follows.read (fun m n h u m' hok => sprintf_strict h.1.strict h.2.2 hok) fun y => ?_
      exact (follows_pushValue b _).pre fun m n h => h.1
    exact hprint m n ⟨hm, hf, hargs⟩

/-- Where nothing is asked of an op, or where that does not matter to it, its value counts unless only the truth of
it ever does. -/
theorem onlyTruth_apply {o : Node} (h : m.gimme = .void → o.priv.has Priv.maybeTrueBool = false) :
    onlyTruth o m = .ok (o.priv.has Priv.trueBool) m := by
  have hmay : (o.priv.has Priv.maybeTrueBool && m.gimme == .void) = false := by
    by_cases hvoid : m.gimme = .void
    · rw [h hvoid, Bool.false_and]
    · rw [beq_eq_false_iff_ne.mpr hvoid, Bool.and_false]
  have hread : onlyTruth o m =
      .ok (o.priv.has Priv.trueBool || (o.priv.has Priv.maybeTrueBool && m.gimme == .void)) m := rfl
  rw [hread, hmay, Bool.or_false]

/-- The length of a text, which is not used as a truth where nothing is asked of it. -/
theorem follows_length {o : Node} (ho : b.gimme = .void → o.priv.has Priv.maybeTrueBool = false) :
    Follows (Tracks b) (length o) (length o) fun _ _ m n => Tracks b m n := by
  refine follows_popOne.bind fun c d => ?_
  refine Follows.read (fun m n h u m' hok => ?_) fun v => ?_
  · rw [valueOf_apply] at hok
    cases hok
    exact ⟨rfl, (valueOf_apply d n).trans (congrArg (EStateM.Result.ok · n) h.2.value)⟩
  · cases v.runeLength with
    | none => exact (follows_pushValue b _).pre fun m n h => h.1
    | some k =>
      refine Follows.read (fun m n h u m' hok => ?_) fun v => ?_
      · rw [onlyTruth_apply fun hvoid => absurd hvoid h.1.strict.asked] at hok
        cases hok
        exact ⟨rfl, onlyTruth_apply fun hvoid => ho (h.1.gimme_eq.symm.trans hvoid)⟩
      · cases v with
        | true => exact (follows_pushBool b _).pre fun m n h => h.1
        | false => exact (follows_pushValue b _).pre fun m n h => h.1

/-- An op of a chain that may be folded, and is then run on the machine `b`. -/
structure Foldable (b : Machine) (o : Node) : Prop where
  safe : o.code.foldSafe = true
  known : o.code = .list → o.want ≠ .unknown
  definite : o.code = .length → b.gimme = .void → o.priv.has Priv.maybeTrueBool = false
  keeps : b.Keeps o

theorem follows_go {o : Node} {x : Exec Unit} (h : Follows (Tracks b) x x fun _ _ m n => Tracks b m n) :
    Follows (Tracks b) (do x; return o.next) (do x; return o.next) fun p q m n => Tracks b m n ∧ p = o.next ∧ q = o.next :=
  h.bind fun _ _ => Follows.pure fun _ _ hm => ⟨hm, rfl, rfl⟩

theorem follows_step {o : Node} (ho : Foldable b o) (names? : Option Pad) :
    Follows (Tracks b) (step none o) (step names? o) fun p q m n => Tracks b m n ∧ p = o.next ∧ q = o.next := by
  have hsafe := ho.safe
  cases hc : o.code
  case null | scalar =>
    simp only [step, hc]
    exact Follows.pure fun _ _ hm => ⟨hm, rfl, rfl⟩
  case pushmark =>
    simp only [step, hc]
    exact follows_go (follows_pushMark b)
  case const =>
    simp only [step, hc]
    exact follows_go (follows_constant b hc ho.keeps)
  case list =>
    simp only [step, hc]
    exact follows_go (follows_listItems (ho.known hc))
  case add | subtract | multiply | divide | modulo =>
    simp only [step, hc]
    exact follows_go (follows_arith _ _)
  case lt | gt | le | ge | eq | ne =>
    simp only [step, hc]
    exact follows_go (follows_compareNumbers _)
  case seq | sne =>
    simp only [step, hc]
    exact follows_go (follows_texts _ fun x y => follows_pushBool b _)
  case concat =>
    simp only [step, hc]
    exact follows_go (follows_texts _ fun x y => follows_pushValue b _)
  case negate =>
    simp only [step, hc]
    exact follows_go (follows_negate _)
  case not =>
    simp only [step, hc]
    exact follows_go follows_not
  case length =>
    simp only [step, hc]
    exact follows_go (follows_length (ho.definite hc))
  case lc | uc =>
    simp only [step, hc]
    exact follows_go (follows_changeCase _)
  case sprintf =>
    simp only [step, hc]
    exact follows_go (follows_formatItems _)
  all_goals
    rw [hc] at hsafe
    cases hsafe

theorem follows_run {recs : Array Node} {K : RecId → Prop}
    (hK : ∀ r, K r → Foldable b (recs.getD r default) ∧ ∀ q, (recs.getD r default).next = some q → K q)
    (names? : Option Pad) (fuel : Nat) {s : Option RecId} (hs : ∀ r, s = some r → K r) :
    Follows (Tracks b) (run ⟨recs, none⟩ fuel s) (run ⟨recs, names?⟩ fuel s) fun _ _ m n => Tracks b m n := by
  induction fuel generalizing s with
  | zero =>
    cases s with
    | none => exact Follows.pure fun _ _ hm => hm
    | some r =>
      intro m n hm u m' hok
      cases hok
  | succ fuel ih =>
    cases s with
    | none => exact Follows.pure fun _ _ hm => hm
    | some r =>
      obtain ⟨hfold, hnext⟩ := hK r (hs r rfl)
      have hcount : Follows (Tracks b) (modify fun m => { m with steps := m.steps + 1 })
          (modify fun m => { m with steps := m.steps + 1 }) fun _ _ m n => Tracks b m n := by
        rintro m n ⟨xs, ys, ks, hm⟩ u m' hok
        cases hok
        refine ⟨(), _, rfl, xs, ys, ks, hm.restack rfl rfl ?_ ?_ hm.alike⟩
        · exact ⟨hm.left.room, hm.left.stack, hm.left.marks⟩
        · exact ⟨hm.right.room, hm.right.stack, hm.right.marks⟩
      refine hcount.bind fun _ _ => (follows_step hfold names?).bind fun p q => Follows.given ?_
      rintro ⟨rfl, rfl⟩
      exact ih fun q hq => hnext q hq

end Stack

end Exec

end OpTree
