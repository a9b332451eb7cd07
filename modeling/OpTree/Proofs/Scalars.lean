import OpTree.Proofs.Strides

/-!
# Trees about scalars

The trees of a listing without containers. What may stand where depends on what becomes of a value: an op takes it,
it is an item of a list, or nobody looks at it.
-/

namespace OpTree

set_option autoImplicit false

namespace Opcode

def heads : List Opcode := [.const, .padsv, .stub, .rv2sv, .say, .die, .ret, .null] ++ unary ++ binary

/-- None of them leads to more than one place, or is a loop or a block. -/
structure Single (t : Opcode) : Prop where
  branches : t.branches = false
  leaveloop : t ≠ .leaveloop
  lineseq : t ≠ .lineseq
  leavesub : t ≠ .leavesub
  short : t ∉ short

theorem single_of_heads {t : Opcode} (h : t ∈ heads) : Single t := by
  have hall : ∀ t ∈ heads, t.branches = false ∧ t ≠ .leaveloop ∧ t ≠ .lineseq ∧ t ≠ .leavesub ∧ t ∉ Opcode.short := by
    decide
  obtain ⟨hb, hl, hs, he, ht⟩ := hall t h
  exact ⟨hb, hl, hs, he, ht⟩

end Opcode

namespace Tree

open Opcode

inductive Use where
  /-- An op takes it as a scalar. -/
  | operand
  /-- It is among the items of a list, which may have none of it. -/
  | item
  /-- Nobody looks at it. -/
  | effect

/-- An arm of a branching op has a scalar where one is looked for. -/
def Use.arm : Use → Use
  | effect => effect
  | _ => operand

/-- The expressions about scalars. A short-circuit op whose value is looked for is not void. -/
inductive Scalar : Use → Tree → Prop where
  | leaf {u : Use} {r : RecId} {o : Node} (hc : o.code = .const ∨ o.code = .padsv) : Scalar u (mk r o [])
  | stub {u : Use} {r : RecId} {o : Node} (hc : o.code = .stub) (hw : u = .operand → o.want = .scalar) :
      Scalar u (mk r o [])
  | global {u : Use} {r g : RecId} {o go : Node} (hc : o.code = .rv2sv) (hg : go.code = .gv) :
      Scalar u (mk r o [mk g go []])
  | unary {u : Use} {r : RecId} {o : Node} {x : Tree} (hc : o.code ∈ Opcode.unary) (hx : Scalar .operand x) :
      Scalar u (mk r o [x])
  | binary {u : Use} {r : RecId} {o : Node} {x y : Tree} (hc : o.code ∈ Opcode.binary) (hx : Scalar .operand x)
      (hy : Scalar .operand y) : Scalar u (mk r o [x, y])
  | marked {u : Use} {r p : RecId} {o po : Node} {ks : List Tree} (hc : o.code = .say ∨ o.code = .die ∨ o.code = .ret)
      (hp : po.code = .pushmark) (hks : ∀ k ∈ ks, Scalar .item k) : Scalar u (mk r o (mk p po [] :: ks))
  | short {u : Use} {n l : RecId} {no lo : Node} {x y : Tree} (hn : no.code = .null) (hc : lo.code ∈ Opcode.short)
      (hw : u ≠ .effect → lo.want ≠ .void) (hx : Scalar .operand x) (hy : Scalar u.arm y) :
      Scalar u (mk n no [mk l lo [x, y]])
  | choice {u : Use} {n l : RecId} {no lo : Node} {x y z : Tree} (hn : no.code = .null) (hc : lo.code = .condExpr)
      (hx : Scalar .operand x) (hy : Scalar u.arm y) (hz : Scalar u.arm z) : Scalar u (mk n no [mk l lo [x, y, z]])

/-- A loop with the bounds of its range and its body. -/
inductive Ranged : Tree → Tree → List Tree → Tree → Prop where
  | mk {r e w l i s : RecId} {o eo wo lo io so : Node} {x y : Tree} {body : List Tree} (hc : o.code = .leaveloop)
      (he : eo.code = .enteriter) (hw : wo.code = .null) (hl : lo.code = .and) (hi : io.code = .iter)
      (hs : so.code = .lineseq) :
      Ranged x y body (Tree.mk r o [Tree.mk e eo [x, y], Tree.mk w wo [Tree.mk l lo [Tree.mk i io [], Tree.mk s so body]]])

/-- The statements of a block. The last one of a tail is its value, the context of all others is known, and the rounds
of a loop are cleaned up. -/
inductive Block : Bool → List Tree → Prop where
  | close {r : RecId} {o : Node} (hc : o.code = .unstack) : Block false [mk r o []]
  | last {r : RecId} {o : Node} (hc : o.code = .nextstate) : Block true [mk r o []]
  | value {r : RecId} {o : Node} {e : Tree} (hc : o.code = .nextstate) (he : Scalar .item e) : Block true [mk r o [], e]
  | final {r : RecId} {o : Node} {x y t : Tree} {body : List Tree} (hc : o.code = .nextstate) (ht : Ranged x y body t)
      (hx : Scalar .operand x) (hy : Scalar .operand y) (hbody : Block false body) : Block true [mk r o [], t]
  | empty {tail : Bool} {r : RecId} {o : Node} {ks : List Tree} (hc : o.code = .nextstate) (h : Block tail ks) :
      Block tail (mk r o [] :: ks)
  | expr {tail : Bool} {r : RecId} {o : Node} {e : Tree} {ks : List Tree} (hc : o.code = .nextstate) (he : Scalar .effect e)
      (hw : e.op.want ≠ .unknown) (h : Block tail ks) : Block tail (mk r o [] :: e :: ks)
  | loop {tail : Bool} {r : RecId} {o : Node} {x y t : Tree} {body ks : List Tree} (hc : o.code = .nextstate)
      (ht : Ranged x y body t) (hx : Scalar .operand x) (hy : Scalar .operand y) (hbody : Block false body)
      (hw : t.op.want ≠ .unknown) (h : Block tail ks) : Block tail (mk r o [] :: t :: ks)

variable {u : Use} {t : Tree} {ks : List Tree} {tail : Bool}

theorem Scalar.of_operand {v : Use} (h : Scalar v t) (hv : v = .operand) (u : Use) : Scalar u t := by
  induction h generalizing u with
  | leaf hc => exact .leaf hc
  | stub hc hw => exact .stub hc fun _ => hw hv
  | global hc hg => exact .global hc hg
  | unary hc hx => exact .unary hc hx
  | binary hc hx hy => exact .binary hc hx hy
  | marked hc hp hks => exact .marked hc hp hks
  | short hn hc hw hx hy _ ihy =>
    subst hv
    exact .short hn hc (fun _ => hw (by rintro ⟨⟩)) hx (ihy rfl u.arm)
  | choice hn hc hx hy hz _ ihy ihz =>
    subst hv
    exact .choice hn hc hx (ihy rfl u.arm) (ihz rfl u.arm)

theorem Scalar.code_mem (h : Scalar u t) : t.op.code ∈ heads := by
  have hsub : ∀ c : Opcode, c ∈ Opcode.unary ∨ c ∈ Opcode.binary → c ∈ heads := by
    rintro c (hc | hc)
    · exact List.mem_append_left _ (List.mem_append_right _ hc)
    · exact List.mem_append_right _ hc
  cases h with
  | leaf hc =>
    rw [op_mk]
    rcases hc with hc | hc <;> rw [hc] <;> decide
  | stub hc => exact hc ▸ by decide
  | global hc => exact hc ▸ by decide
  | unary hc => exact hsub _ (Or.inl hc)
  | binary hc => exact hsub _ (Or.inr hc)
  | marked hc =>
    rw [op_mk]
    rcases hc with hc | hc | hc <;> rw [hc] <;> decide
  | short hn => exact hn ▸ by decide
  | choice hn => exact hn ▸ by decide

theorem Scalar.single (h : Scalar u t) : Single t.op.code := single_of_heads h.code_mem

theorem Scalar.start_solid (h : Scalar u t) : ∃ w ∈ t.subtrees, w.root = t.start ∧ w.op.code ∈ solid := by
  have hleaf : ∀ {r : RecId} {o : Node}, o.code ∈ solid →
      ∃ w ∈ (mk r o []).subtrees, w.root = (mk r o []).start ∧ w.op.code ∈ solid :=
    fun ho => ⟨_, self_mem_subtrees _, rfl, ho⟩
  have hfirst : ∀ {r : RecId} {o : Node} {x : Tree} {ks : List Tree},
      (∃ w ∈ x.subtrees, w.root = x.start ∧ w.op.code ∈ solid) →
      ∃ w ∈ (mk r o (x :: ks)).subtrees, w.root = (mk r o (x :: ks)).start ∧ w.op.code ∈ solid := by
    rintro r o x ks ⟨w, hw, hroot, hc⟩
    exact ⟨w, subtrees_trans (kid_mem_subtrees (List.mem_cons_self ..)) hw, hroot, hc⟩
  induction h with
  | leaf hc =>
    apply hleaf
    rcases hc with hc | hc <;> rw [hc] <;> decide
  | stub hc => exact hleaf (hc ▸ by decide)
  | global _ hg => exact hfirst (hleaf (hg ▸ by decide))
  | unary _ _ ih => exact hfirst ih
  | binary _ _ _ ih => exact hfirst ih
  | marked _ hp => exact hfirst (hleaf (hp ▸ by decide))
  | short _ _ _ _ _ ih => exact hfirst (hfirst ih)
  | choice _ _ _ _ _ ih => exact hfirst (hfirst ih)

end Tree

end OpTree
