import OpTree.Proofs.Invariants
import OpTree.Program

/-!
# Read-only cells

The two truth values are cells that everybody shares, and a const op pushes one and the same cell each
time it is executed. Such cells get onto the stack like any other and from there to assignments, to
elements and into the pad. Nothing writes them: whatever is run on a heap, the cells of it that are
read-only hold the same afterwards.
-/

namespace OpTree

set_option autoImplicit false

namespace Heap

variable {h h' h'' : Heap}

theorem KeepsReadOnly.refl (h : Heap) : h.KeepsReadOnly h := fun _ _ => rfl

theorem KeepsReadOnly.trans (k : h.KeepsReadOnly h') (k' : h'.KeepsReadOnly h'') :
    h.KeepsReadOnly h'' := by
  intro c hc
  have hkept := k c hc
  rw [← hkept] at hc
  exact (k' c hc).trans hkept

end Heap

/-- What is read-only on the heap of a machine is so on the heap of the other, and holds the same. -/
def Machine.KeepsReadOnly (m m' : Machine) : Prop := m.heap.KeepsReadOnly m'.heap

namespace Exec

open Machine

theorem admits_readOnly (names? : Option Pad) : Admits names? KeepsReadOnly where
  refl m := .refl m.heap
  trans k k' := Heap.KeepsReadOnly.trans k k'
  stack m _ _ _ _ := .refl m.heap
  notes m _ _ _ _ _ := .refl m.heap
  heap _ _ h := h.readOnly
  scalar m _ _ _ := .refl m.heap
  fresh m targ _ := (fresh_advances names? m.heap targ).readOnly
  advance m _ _ _ _ := .refl m.heap
  enter m _ _ := .refl m.heap
  close m _ _ _ := .refl m.heap
  restore m _ _ _ := .refl m.heap

theorem step_readOnly (names? : Option Pad) (o : Node) :
    Within KeepsReadOnly (step names? o) := within_step (admits_readOnly names?) o

theorem run_readOnly (code : Code) (fuel : Nat) (start : Option RecId) :
    Within KeepsReadOnly (run code fuel start) := by
  have hR := (admits_readOnly code.names?).toSpares
  induction fuel generalizing start with
  | zero =>
    cases start with
    | none => exact within_pure hR _
    | some r => exact within_throw hR _
  | succ fuel ih =>
    cases start with
    | none => exact within_pure hR _
    | some r =>
      have hcount : Within KeepsReadOnly
          (modify fun m => { m with steps := m.steps + 1 } : Exec Unit) := fun m => .refl m.heap
      exact hcount.bind hR fun _ => (step_readOnly code.names? _).bind hR fun next => ih next

end Exec

namespace Code

variable {c : Code} {r : RecId}

theorem heap_yes (c : Code) : c.heap.cell Machine.yes = ⟨.bool true, true⟩ := by
  simp [heap, Heap.cell, Machine.initialHeap, Machine.yes, Array.getElem?_append]

theorem heap_no (c : Code) : c.heap.cell Machine.no = ⟨.bool false, true⟩ := by
  simp [heap, Heap.cell, Machine.initialHeap, Machine.no, Array.getElem?_append]

theorem heap_valueCell (h : r < c.recs.size) : c.heap.cell (valueCell r) = ⟨(c.node r).val.value, true⟩ := by
  have hge : ¬ r + 2 < 2 := Nat.not_lt.mpr (Nat.le_add_left 2 r)
  simp [heap, valueCell, Heap.cell, node, Machine.initialHeap, Array.getElem?_append, hge, h]

theorem lt_size_of_const (h : (c.node r).code = .const) : r < c.recs.size := by
  refine Nat.lt_of_not_le fun hle => ?_
  have hnode : c.node r = default := by simp [node, Nat.not_lt.mpr hle]
  rw [hnode] at h
  cases h

theorem exists_of_kept {id : Nat} {k : CellId} (h : c.kept id = some k) :
    ∃ r, (c.node r).code = .const ∧ (c.node r).id = id ∧ k = valueCell r := by
  obtain ⟨r, hr, rfl⟩ := Option.map_eq_some_iff.mp h
  obtain ⟨hlt, hboth, -⟩ := Array.findIdx?_eq_some_iff_getElem.mp hr
  obtain ⟨hcode, hid⟩ := Bool.and_eq_true_iff.mp hboth
  have hnode : c.node r = c.recs[r] := by simp [node, hlt]
  rw [← hnode] at hcode hid
  exact ⟨r, eq_of_beq hcode, eq_of_beq hid, rfl⟩

theorem kept_of_const (h : (c.node r).code = .const) : ∃ k, c.kept (c.node r).id = some k := by
  have hlt := lt_size_of_const h
  have hnode : c.recs[r] = c.node r := by simp [node, hlt]
  have hsome : (c.recs.findIdx? fun o => o.code == .const && o.id == (c.node r).id).isSome := by
    rw [Array.findIdx?_isSome, Array.any_eq_true]
    exact ⟨r, hlt, by simp [hnode, h]⟩
  obtain ⟨i, hi⟩ := Option.isSome_iff_exists.mp hsome
  exact ⟨valueCell i, by rw [kept, hi]; rfl⟩

end Code

namespace SubUnit

open Exec

/-- What becomes of a heap by any number of runs of a unit, each of them on whatever machine stands on the
heap that the ones before it have left, in any context and with any amount of fuel: a run that is cut
short or fails has executed a prefix of its ops. -/
inductive Ran (u : SubUnit) : Heap → Heap → Prop where
  | refl (h : Heap) : Ran u h h
  /-- A container for the pad of another machine. -/
  | slot {h h' : Heap} (names? : Option Pad) (targ : Int) (hr : Ran u h h') :
      Ran u h (Machine.fresh names? h' targ).2
  | run {h : Heap} (m : Machine) (fuel : Nat) (gimme : Want) (hr : Ran u h m.heap) :
      Ran u h ((u.run fuel gimme).after m).heap

variable {u : SubUnit} {h h' : Heap}

theorem run_readOnly (u : SubUnit) (fuel : Nat) (gimme : Want) :
    Within Machine.KeepsReadOnly (u.run fuel gimme) := by
  have hR := (admits_readOnly u.code.names?).toSpares
  unfold run
  split
  · have hset : Within Machine.KeepsReadOnly
        (modify fun m => { m with gimme := gimme, leave := u.root, result := [] } : Exec Unit) :=
      fun m => .refl m.heap
    exact hset.bind hR fun _ => (Exec.run_readOnly u.code fuel u.start).bind hR fun _ =>
      (within_get hR).bind hR fun _ => within_pure hR _
  · exact within_throw hR _

/-- Runs leave the read-only cells of a heap as they are. -/
theorem Ran.keepsReadOnly (hr : Ran u h h') : h.KeepsReadOnly h' := by
  induction hr with
  | refl => exact .refl h
  | slot names? targ _ ih => exact ih.trans (Machine.fresh_advances names? _ targ).readOnly
  | run m fuel gimme _ ih => exact ih.trans (u.run_readOnly fuel gimme m)

/-- The cells that runs share never change: neither those of const ops, which are what a machine keeps for
them, nor those of the truth values, nor any other read-only cell that there is at some moment. -/
theorem readOnly_unchanged {u : SubUnit} {h h' : Heap} (hr : Ran u u.code.heap h) (hr' : Ran u h h') :
    (∀ r, (u.code.node r).code = .const → (∃ c, u.code.kept (u.code.node r).id = some c) ∧
        h'.cell (Code.valueCell r) = ⟨(u.code.node r).val.value, true⟩) ∧
      (∀ id c, u.code.kept id = some c → ∃ r, (u.code.node r).code = .const ∧ (u.code.node r).id = id ∧
        c = Code.valueCell r) ∧
      h'.cell Machine.yes = ⟨.bool true, true⟩ ∧ h'.cell Machine.no = ⟨.bool false, true⟩ ∧
      ∀ c : Nat, (h.cell c).readOnly = true → h'.cell c = h.cell c := by
  have hkept := hr.keepsReadOnly.trans hr'.keepsReadOnly
  have hstay : ∀ {c : Nat} {v : Value}, u.code.heap.cell c = ⟨v, true⟩ → h'.cell c = ⟨v, true⟩ := by
    intro c v hc
    exact (hkept c (by rw [hc])).trans hc
  refine ⟨?_, fun id c => Code.exists_of_kept, hstay u.code.heap_yes, hstay u.code.heap_no, hr'.keepsReadOnly⟩
  intro r hconst
  exact ⟨Code.kept_of_const hconst, hstay (Code.heap_valueCell (Code.lt_size_of_const hconst))⟩

/-- A sub that assigns to a literal: the run is refused the write, and after it and one more run the literal
is what it was. -/
theorem readOnly_unchanged_literal : ∃ p u r m k, Program.compile (utf8 "t.pl")
      (utf8 "(sub main (sassign 7 5) (return 1))") {} = .ok p ∧ u ∈ p.units ∧
    u.run 20 .list { heap := u.code.heap, kept := u.code.kept } = .error
      (.thrown (utf8 "Modification of a read-only value attempted") (utf8 "t.pl") 1) m ∧
    Ran u u.code.heap m.heap ∧ Ran u m.heap ((u.run 20 .list).after m).heap ∧
    (u.code.node r).code = .const ∧ u.code.kept (u.code.node r).id = some k ∧
    ((u.run 20 .list).after m).heap.cell k = ⟨.int 5, true⟩ := by
  generalize htext : utf8 "(sub main (sassign 7 5) (return 1))" = text
  have hrun : (Program.compile (utf8 "t.pl") text {}).toOption.map (fun p => p.units.any fun u =>
      fails (u.run 20 .list) { heap := u.code.heap, kept := u.code.kept }
        (.thrown (utf8 "Modification of a read-only value attempted") (utf8 "t.pl") 1) &&
      (List.range u.code.recs.size).any fun r => (u.code.node r).constInt? = some 5 &&
        u.code.kept (u.code.node r).id == some (Code.valueCell r)) = some true := by
    subst htext
    decide +kernel
  obtain ⟨p, hp, hrun⟩ := Option.map_eq_some_iff.mp hrun
  obtain ⟨u, hu, hboth⟩ := Array.any_eq_true'.mp hrun
  obtain ⟨hfails, hlit⟩ := Bool.and_eq_true_iff.mp hboth
  obtain ⟨r, -, hboth⟩ := List.any_eq_true.mp hlit
  obtain ⟨hfive, hk⟩ := Bool.and_eq_true_iff.mp hboth
  obtain ⟨hconst, hv⟩ := Node.const_of_constInt? (of_decide_eq_true hfive)
  obtain ⟨m, herr⟩ := error_of_fails hfails
  have hfirst : Ran u u.code.heap m.heap := by
    have hran := Ran.run { heap := u.code.heap, kept := u.code.kept } 20 .list (@Ran.refl u u.code.heap)
    rwa [after, herr] at hran
  have hagain : Ran u m.heap ((u.run 20 .list).after m).heap := .run m 20 .list (.refl m.heap)
  obtain ⟨hall, -⟩ := readOnly_unchanged hfirst hagain
  have hcell := (hall r hconst).2
  exact ⟨p, u, r, m, Code.valueCell r, ok_of_toOption hp, hu, herr, hfirst, hagain, hconst, eq_of_beq hk,
    by rw [hcell, hv]⟩

end SubUnit

end OpTree
