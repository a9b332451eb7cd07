import OpTree.Proofs.Aloof

/-!
# Ops on two stacks

The ops on scalars, the marks and the printing ops do the same on two machines whose stacks agree above a
floor of their own.
-/

namespace OpTree

set_option autoImplicit false

namespace Machine

/-- What lies on two stacks below the items they share, and the marks of both. -/
structure Floor where
  items : List Item
  items' : List Item
  marks : List Nat
  marks' : List Nat

def Floor.ground : Floor := ⟨[], [], [], []⟩

def Floor.marked (F : Floor) (k : Nat) : Floor :=
  { F with marks := (F.items.length + k) :: F.marks, marks' := (F.items'.length + k) :: F.marks' }

def Floor.Below (F : Floor) (k : Nat) : Prop :=
  (∀ i ∈ F.marks, i ≤ F.items.length + k) ∧ ∀ i ∈ F.marks', i ≤ F.items'.length + k

theorem Floor.below_of_nil {F : Floor} {k : Nat} (h : F.marks = []) (h' : F.marks' = []) : F.Below k := by
  rw [Below, h, h']
  constructor <;> intro i hi <;> cases hi

theorem Floor.below_ground (k : Nat) : Floor.ground.Below k := below_of_nil rfl rfl

theorem Floor.Below.mono {F : Floor} {i j : Nat} (h : F.Below i) (hij : i ≤ j) : F.Below j := by
  refine ⟨fun k hk => ?_, fun k hk => ?_⟩
  · have hle := h.1 k hk
    omega
  · have hle := h.2 k hk
    omega

theorem Floor.Below.marked {F : Floor} {i j : Nat} (h : F.Below i) (hij : i ≤ j) : (F.marked i).Below j := by
  refine ⟨fun k hk => ?_, fun k hk => ?_⟩
  · rcases List.mem_cons.mp hk with rfl | hk
    · exact Nat.add_le_add_left hij _
    · exact (h.mono hij).1 k hk
  · rcases List.mem_cons.mp hk with rfl | hk
    · exact Nat.add_le_add_left hij _
    · exact (h.mono hij).2 k hk

def Level (m : Machine) : Prop := ∀ l ∈ m.loops, l.height = 0

/-- So many loops are open, a sub ends with the op `root`, and the two shared cells hold the truth values. -/
structure Steady (root : RecId) (d : Nat) (m : Machine) : Prop where
  level : m.Level
  depth : m.loops.length = d
  leave : m.leave = some root
  yes : m.heap.cell yes = ⟨.bool true, true⟩
  no : m.heap.cell no = ⟨.bool false, true⟩

/-- Two machines that differ in their stacks only, with the same items on top. -/
structure Abreast (F : Floor) (xs : List Item) (m m' : Machine) : Prop where
  left : m.Has ⟨F.items ++ xs, F.marks⟩
  right : m'.Has ⟨F.items' ++ xs, F.marks'⟩
  off : m'.offStack = m.offStack

def Topped (F : Floor) (xs : List Item) (m m' : Machine) : Prop := ∃ c, Abreast F (xs ++ [.scalar c]) m m'

end Machine

namespace Exec

open Machine

variable {α β : Type} {F : Floor} {xs : List Item} {c d : Option CellId}

section Stacks

theorem has_of_aloof {x : Exec α} (hx : Aloof x) {m n : Machine} {l : Layout} {v : α} (h : m.Has l)
    (hok : x m = .ok v n) : n.Has l := by
  have hown := hx m m.slots m.height m.marks m.steps
  rw [show m.restack m.slots m.height m.marks m.steps = m from rfl, hok] at hown
  have hn : n = n.restack m.slots m.height m.marks m.steps := (EStateM.Result.ok.inj hown).2
  rw [hn]
  exact ⟨h.room, h.stack, h.marks⟩

theorem tandem_aloof {x : Exec α} (hx : Aloof x) : Tandem (Abreast F xs) x fun _ => Abreast F xs := by
  intro m m' hm
  have hrest := hx m m'.slots m'.height m'.marks m'.steps
  rw [← restack_of_offStack hm.off] at hrest
  cases hok : x m with
  | ok v n =>
    rw [hok] at hrest
    rw [hrest]
    exact ⟨rfl, has_of_aloof hx hm.left hok, has_of_aloof hx hm.right hrest, rfl⟩
  | error e n =>
    rw [hok] at hrest
    rw [hrest]
    exact ⟨rfl, rfl⟩

theorem tandem_aloof_bind {x : Exec α} {f : α → Exec β} {Q : β → Machine → Machine → Prop} (hx : Aloof x)
    (hf : ∀ v, Tandem (Abreast F xs) (f v) Q) : Tandem (Abreast F xs) (x >>= f) Q := (tandem_aloof hx).bind hf

theorem tandem_push (x : Item) : Tandem (Abreast F xs) (push x) fun _ => Abreast F (xs ++ [x]) := by
  intro m m' hm
  obtain ⟨n, hok, hoff, hhas⟩ := push_has x hm.left
  obtain ⟨n', hok', hoff', hhas'⟩ := push_has x hm.right
  rw [hok, hok']
  refine ⟨rfl, ?_, ?_, hoff'.trans (hm.off.trans hoff.symm)⟩
  · rwa [← List.append_assoc]
  · rwa [← List.append_assoc]

theorem tandem_pushScalar (c : Option CellId) : Tandem (Abreast F xs) (push (.scalar c)) fun _ => Topped F xs :=
  (tandem_push _).post fun _ _ _ h => ⟨c, h⟩

theorem tandem_pushValue (v : Value) : Tandem (Abreast F xs) (pushValue v) fun _ => Topped F xs :=
  tandem_aloof_bind (aloof_temp v) fun c => tandem_pushScalar (some c)

theorem tandem_pushBool (b : Bool) : Tandem (Abreast F xs) (pushBool b) fun _ => Topped F xs :=
  tandem_pushScalar _

theorem tandem_throwAt (msg : Bytes) {Q : α → Machine → Machine → Prop} :
    Tandem (Abreast F xs) (throwAt msg : Exec α) Q := by
  intro m m' hm
  rw [restack_of_offStack hm.off]
  exact ⟨rfl, rfl⟩

theorem tandem_pop_bind {x : Item} {f : Item → Exec β} {Q : β → Machine → Machine → Prop}
    (hf : Tandem (Abreast F xs) (f x) Q) : Tandem (Abreast F (xs ++ [x])) (pop >>= f) Q := by
  intro m m' hm
  have hleft := hm.left
  have hright := hm.right
  rw [← List.append_assoc] at hleft hright
  obtain ⟨n, hok, hoff, hhas⟩ := pop_has hleft
  obtain ⟨n', hok', hoff', hhas'⟩ := pop_has hright
  rw [bind_of_ok hok, bind_of_ok hok']
  exact hf n n' ⟨hhas, hhas', hoff'.trans (hm.off.trans hoff.symm)⟩

theorem tandem_popScalar_bind {f : Option CellId → Exec β} {Q : β → Machine → Machine → Prop}
    (hf : Tandem (Abreast F xs) (f c) Q) : Tandem (Abreast F (xs ++ [.scalar c])) (popScalar >>= f) Q := by
  rw [popScalar, bind_assoc]
  exact tandem_pop_bind hf

theorem tandem_popPair_bind {f : Option CellId × Option CellId → Exec β} {Q : β → Machine → Machine → Prop}
    (hf : Tandem (Abreast F xs) (f (c, d)) Q) :
    Tandem (Abreast F ((xs ++ [.scalar c]) ++ [.scalar d])) (popPair >>= f) Q := by
  rw [popPair, bind_assoc]
  refine tandem_popScalar_bind ?_
  rw [bind_assoc]
  exact tandem_popScalar_bind hf

end Stacks

section Steps

variable {names? : Option Pad} {o : Node}

theorem tandem_go {P : Machine → Machine → Prop} {y : Exec Unit} {Q : Machine → Machine → Prop}
    (h : Tandem P y fun _ => Q) : Tandem P (do y; return o.next) fun _ => Q :=
  h.bind fun _ => tandem_pure fun _ _ hq => hq

theorem tandem_constant : Tandem (Abreast F xs) (constant o) fun _ => Topped F xs :=
  tandem_aloof_bind (aloof_cellFor o) fun _ => tandem_pushScalar _

theorem tandem_padScalar : Tandem (Abreast F xs) (padScalar o) fun _ => Topped F xs := by
  have hread : Tandem (Abreast F xs) (do
      let c := (← padSlot o.targ).scalar?
      vivify c o.priv
      push (.scalar c)) fun _ => Topped F xs :=
    tandem_aloof_bind (aloof_padSlot _) fun _ => tandem_aloof_bind (aloof_vivify _ _) fun _ => tandem_pushScalar _
  unfold padScalar
  split
  · exact tandem_aloof_bind (aloof_temp _) fun _ => tandem_aloof_bind (aloof_setPadSlot _ _) fun _ => hread
  · exact hread

theorem tandem_derefScalar (g : GlobId) : Tandem (Abreast F (xs ++ [.glob g])) derefScalar fun _ => Topped F xs :=
  tandem_pop_bind (tandem_aloof_bind (aloof_onHeap _) fun _ => tandem_pushScalar _)

theorem tandem_glob : Tandem (Abreast F xs) (do push (.glob (← global o.name))) fun _ m m' =>
    ∃ g, Abreast F (xs ++ [.glob g]) m m' :=
  tandem_aloof_bind (aloof_onHeap _) fun g => (tandem_push _).post fun _ _ _ h => ⟨g, h⟩

theorem aloof_wantOf (o : Node) : Aloof (wantOf o) := by
  unfold wantOf
  split
  · exact aloof_get (fun _ _ _ _ _ => rfl) fun _ => aloof_pure _
  · exact aloof_pure _

theorem wantOf_scalar (h : o.want = .scalar) : wantOf o = pure .scalar := by
  unfold wantOf
  rw [h]

theorem tandem_stub : Tandem (Abreast F xs) (stub o) fun _ m m' =>
    Topped F xs m m' ∨ o.want ≠ .scalar ∧ Abreast F xs m m' := by
  unfold stub
  by_cases hw : o.want = .scalar
  · rw [wantOf_scalar hw, pure_bind, if_pos (by decide)]
    exact (tandem_pushValue _).post fun _ _ _ h => Or.inl h
  · refine tandem_aloof_bind (aloof_wantOf o) fun w => ?_
    split
    · exact (tandem_pushValue _).post fun _ _ _ h => Or.inl h
    · exact tandem_pure fun _ _ h => Or.inr ⟨hw, h⟩

theorem tandem_negate (t : Opcode) : Tandem (Abreast F (xs ++ [.scalar c])) (negate t) fun _ => Topped F xs := by
  refine tandem_popScalar_bind (tandem_aloof_bind (aloof_cellOf _) fun q => ?_)
  dsimp only
  split
  · exact tandem_pushValue _
  · exact tandem_aloof_bind (aloof_toNumber _ _) fun _ => tandem_pushValue _

theorem tandem_unary (ho : o.code ∈ Opcode.unary) :
    Tandem (Abreast F (xs ++ [.scalar c])) (step names? o) fun _ => Topped F xs := by
  have hcase : ∀ t, Tandem (Abreast F (xs ++ [.scalar c])) (changeCase t) fun _ => Topped F xs := fun t =>
    tandem_popScalar_bind (tandem_aloof_bind (aloof_toText _ _) fun _ => tandem_pushValue _)
  unfold step
  simp only [Opcode.unary, List.mem_cons, List.not_mem_nil, or_false] at ho
  rcases ho with h | h | h | h
  · simp only [h]
    exact tandem_go (tandem_negate _)
  · simp only [h]
    exact tandem_go (tandem_popScalar_bind (tandem_aloof_bind (aloof_valueOf _) fun _ => tandem_pushBool _))
  · simp only [h]
    exact tandem_go (hcase _)
  · simp only [h]
    exact tandem_go (hcase _)

theorem tandem_arith (op : ArithOp) (t : Opcode) :
    Tandem (Abreast F ((xs ++ [.scalar c]) ++ [.scalar d])) (arith op t) fun _ => Topped F xs := by
  refine tandem_popPair_bind (tandem_aloof_bind (aloof_toNumber _ _) fun a =>
    tandem_aloof_bind (aloof_toNumber _ _) fun b => ?_)
  split
  · exact tandem_pushValue _
  · exact tandem_throwAt _

theorem tandem_assign : Tandem (Abreast F ((xs ++ [.scalar c]) ++ [.scalar d])) assign fun _ => Topped F xs := by
  refine tandem_popScalar_bind (tandem_popScalar_bind (tandem_aloof_bind (aloof_cellOf _) fun q => ?_))
  dsimp only
  split
  · exact tandem_aloof_bind (aloof_throwAt _) fun _ => tandem_aloof_bind (aloof_valueOf _) fun _ =>
      tandem_aloof_bind (aloof_store _ _) fun _ => tandem_pushScalar _
  · exact tandem_aloof_bind (aloof_valueOf _) fun _ => tandem_aloof_bind (aloof_store _ _) fun _ =>
      tandem_pushScalar _

theorem tandem_compareNumbers (t : Opcode) :
    Tandem (Abreast F ((xs ++ [.scalar c]) ++ [.scalar d])) (compareNumbers t) fun _ => Topped F xs :=
  tandem_popPair_bind (tandem_aloof_bind (aloof_toNumber _ _) fun _ =>
    tandem_aloof_bind (aloof_toNumber _ _) fun _ => tandem_pushBool _)

theorem tandem_compareTexts (t : Opcode) :
    Tandem (Abreast F ((xs ++ [.scalar c]) ++ [.scalar d])) (compareTexts t) fun _ => Topped F xs :=
  tandem_popPair_bind (tandem_aloof_bind (aloof_toText _ _) fun _ =>
    tandem_aloof_bind (aloof_toText _ _) fun _ => tandem_pushBool _)

theorem tandem_concat (t : Opcode) :
    Tandem (Abreast F ((xs ++ [.scalar c]) ++ [.scalar d])) (concat t) fun _ => Topped F xs :=
  tandem_popPair_bind (tandem_aloof_bind (aloof_toText _ _) fun _ =>
    tandem_aloof_bind (aloof_toText _ _) fun _ => tandem_pushValue _)

theorem tandem_binary (ho : o.code ∈ Opcode.binary) :
    Tandem (Abreast F ((xs ++ [.scalar c]) ++ [.scalar d])) (step names? o) fun _ => Topped F xs := by
  unfold step
  simp only [Opcode.binary, List.mem_cons, List.not_mem_nil, or_false] at ho
  rcases ho with h | h | h | h | h | h | h | h | h | h | h | h | h | h | h <;> simp only [h] <;> apply tandem_go
  · exact tandem_arith _ _
  · exact tandem_arith _ _
  · exact tandem_arith _ _
  · exact tandem_arith _ _
  · exact tandem_arith _ _
  · exact tandem_concat _
  · exact tandem_compareNumbers _
  · exact tandem_compareNumbers _
  · exact tandem_compareNumbers _
  · exact tandem_compareNumbers _
  · exact tandem_compareNumbers _
  · exact tandem_compareNumbers _
  · exact tandem_compareTexts _
  · exact tandem_compareTexts _
  · exact tandem_assign

end Steps

section Marks

variable {m : Machine} {ks : List Nat} {cs : List (Option CellId)}

def listed : Item → Exec (Option CellId)
  | .scalar c => pure c
  | x => broken (utf8 "scalar expected in list, got " ++ x.typeName)

theorem mapM_listed (cs : List (Option CellId)) (m : Machine) : (cs.map Item.scalar).mapM listed m = .ok cs m := by
  induction cs with
  | nil => rfl
  | cons c cs ih =>
    rw [List.map_cons, List.mapM_cons]
    change (do
      let rest ← _
      pure (c :: rest) : Exec (List (Option CellId))) m = _
    rw [bind_of_ok ih]
    rfl

theorem items_has (h : m.Has ⟨xs ++ cs.map .scalar, xs.length :: ks⟩) (hk : ∀ k ∈ ks, k ≤ xs.length) :
    ∃ n, items m = .ok cs n ∧ n.offStack = m.offStack ∧ n.Has ⟨xs, ks⟩ := by
  obtain ⟨m₁, hmark, hoff, -, hhas⟩ := popMark_has h
  have hmin : min xs.length (xs ++ cs.map Item.scalar).length = xs.length := by
    rw [List.length_append]
    omega
  rw [hmin] at hmark
  have hle : xs.length ≤ (xs ++ cs.map Item.scalar).length := by
    rw [List.length_append]
    omega
  have hitems := itemsFrom_has hhas hle
  rw [List.drop_left] at hitems
  obtain ⟨m₂, hreset, hoff', -, hhas'⟩ := resetStack_has hhas hle
  have hdrop : ks.dropWhile (xs.length < ·) = ks := by
    cases ks with
    | nil => rfl
    | cons k ks =>
      have hle := hk k (List.mem_cons_self ..)
      exact List.dropWhile_cons_of_neg (by simpa using hle)
  rw [List.take_left, hdrop] at hhas'
  refine ⟨m₂, ?_, hoff'.trans hoff, hhas'⟩
  rw [items, bind_of_ok hmark, bind_of_ok hitems]
  refine (bind_of_ok (mapM_listed cs m₁)).trans ?_
  rw [bind_of_ok hreset]
  rfl

end Marks

section Frames

variable {ws : List Item} {cs : List (Option CellId)}

theorem pushMark_has {m : Machine} {ks : List Nat} (h : m.Has ⟨xs, ks⟩) :
    ∃ n, pushMark m = .ok () n ∧ n.offStack = m.offStack ∧ n.Has ⟨xs, xs.length :: ks⟩ := by
  refine ⟨_, rfl, rfl, h.room, h.stack, ?_⟩
  change m.height :: m.marks = _
  rw [h.marks, ← h.length]

theorem tandem_pushMark : Tandem (Abreast F xs) pushMark fun _ => Abreast (F.marked xs.length) xs := by
  intro m m' hm
  obtain ⟨n, hok, hoff, hhas⟩ := pushMark_has hm.left
  obtain ⟨n', hok', hoff', hhas'⟩ := pushMark_has hm.right
  rw [List.length_append] at hhas hhas'
  rw [hok, hok']
  exact ⟨rfl, hhas, hhas', hoff'.trans (hm.off.trans hoff.symm)⟩

theorem tandem_items (hk : F.Below ws.length) :
    Tandem (Abreast (F.marked ws.length) (ws ++ cs.map .scalar)) items fun u m m' => u = cs ∧ Abreast F ws m m' := by
  intro m m' hm
  have hleft := hm.left
  have hright := hm.right
  simp only [Floor.marked, ← List.append_assoc, ← List.length_append] at hleft hright
  obtain ⟨n, hok, hoff, hhas⟩ := items_has hleft (by simpa using hk.1)
  obtain ⟨n', hok', hoff', hhas'⟩ := items_has hright (by simpa using hk.2)
  rw [hok, hok']
  exact ⟨rfl, rfl, hhas, hhas', hoff'.trans (hm.off.trans hoff.symm)⟩

theorem tandem_items_bind {f : List (Option CellId) → Exec β} {Q : β → Machine → Machine → Prop}
    (hk : F.Below ws.length) (hf : Tandem (Abreast F ws) (f cs) Q) :
    Tandem (Abreast (F.marked ws.length) (ws ++ cs.map .scalar)) (items >>= f) Q := by
  refine (tandem_items hk).bind fun u m m' hm => ?_
  rw [hm.1]
  exact hf m m' hm.2

theorem tandem_say (hk : F.Below ws.length) (t : Opcode) :
    Tandem (Abreast (F.marked ws.length) (ws ++ cs.map .scalar)) (say t) fun _ => Topped F ws := by
  refine tandem_items_bind hk (tandem_aloof_bind (aloof_mapM (fun c => aloof_toText c t) _) fun texts => ?_)
  exact tandem_aloof_bind (aloof_write _) fun _ => tandem_pushBool true

theorem tandem_die (hk : F.Below ws.length) {Q : α → Machine → Machine → Prop} :
    Tandem (Abreast (F.marked ws.length) (ws ++ cs.map .scalar)) die Q := by
  refine tandem_items_bind hk (tandem_aloof_bind (aloof_mapM (fun c => ?_) _) fun texts => ?_)
  · exact (aloof_valueOf c).bind fun _ => aloof_pure _
  · dsimp only
    split
    all_goals
      split
      · exact tandem_throw fun _ _ (hm : Abreast F ws _ _) => hm.off
      · exact tandem_throwAt _

end Frames

end Exec

end OpTree
