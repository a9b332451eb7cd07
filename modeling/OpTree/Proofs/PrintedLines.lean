import OpTree.Print
import OpTree.Proofs.Numerals

/-!
# Lines of a printed chain

Up to its first number a line tells what it is: no op is called a branch or a goto, and no name of an op has the
sign in it that stands before a number. What may look like another line comes later, in the name of a variable or
in a label.
-/

namespace OpTree

set_option autoImplicit false

/-- What the front of a line tells: its kind, and the id that it names. -/
inductive ChainMark where
  | branch (id : Nat)
  | op (id : Nat)
  | jump (id : Nat)
  deriving DecidableEq

namespace ChainMark

def read? (s : Bytes) : Option ChainMark :=
  let digits := (s.dropWhile (· != 35)).tail.takeWhile Bytes.isDigit
  let id? := if digits.isEmpty then none else Literal.natFrom? 10 0 digits
  let front := s.takeWhile (· != 35)
  if front = utf8 "branch " then id?.map branch
  else if front = utf8 "\tgoto " then id?.map jump
  else if front.head? = some 9 then id?.map op
  else none

theorem read?_eq {front t : Bytes} {id : Nat} (hfront : 35 ∉ front) (ht : Past Bytes.isDigit t) :
    read? (front ++ 35 :: (Bytes.ofNat id ++ t)) =
      if front = utf8 "branch " then some (branch id)
      else if front = utf8 "\tgoto " then some (jump id)
      else if front.head? = some 9 then some (op id)
      else none := by
  have hsign : Past (· != 35) (35 :: (Bytes.ofNat id ++ t)) := by
    intro b hb
    cases hb
    rfl
  have hplain : ∀ c ∈ front, (c != 35) = true := fun c hc => bne_iff_ne.mpr fun he => hfront (he ▸ hc)
  obtain ⟨htake, hdrop⟩ := span_iff.mpr ⟨rfl, hplain, hsign⟩
  obtain ⟨hdigits, -⟩ := span_iff.mpr ⟨rfl, fun c => Bytes.isDigit_of_mem_ofNat (n := id), ht⟩
  simp only [read?, htake, hdrop, List.tail_cons, hdigits, List.isEmpty_iff, Bytes.ofNat_ne_nil, if_false,
    Literal.natFrom?_ofNat, Option.map_some]

end ChainMark

def Spaced (s : Bytes) : Prop := ∀ b ∈ s.head?, b = 32

theorem spaced_nil : Spaced [] := by
  rintro b ⟨⟩

theorem spaced_cons (s : Bytes) : Spaced (32 :: s) := by
  rintro b ⟨⟩
  rfl

theorem Spaced.append {s t : Bytes} (hs : Spaced s) (ht : Spaced t) : Spaced (s ++ t) := by
  cases s with
  | nil => exact ht
  | cons b s => exact hs

/-- A text that goes on with blanks or ends with the line does not go on with a digit. -/
theorem Spaced.past {s : Bytes} (hs : Spaced s) : Past Bytes.isDigit s := by
  intro b hb
  rw [hs b hb]
  rfl

theorem Opcode.nameBytes_plain (t : Opcode) : 35 ∉ t.nameBytes ∧ t.nameBytes ≠ utf8 "goto" := by
  cases t <;> decide +kernel

namespace Payload

theorem spaced_print (v : Payload) : Spaced v.print := by
  cases v with
  | none => exact spaced_nil
  | scalar v =>
    cases v with
    | undefined => exact spaced_cons _
    | _ => exact spaced_cons _
  | bare v =>
    cases v with
    | undefined => exact spaced_nil
    | _ => exact spaced_cons _

end Payload

theorem Path.spaced_print (p : Path) : Spaced p.print := by
  unfold Path.print
  split
  · exact spaced_nil
  · exact spaced_cons _

namespace Node

variable (n : Node)

theorem spaced_bitsText : Spaced n.bitsText := by
  unfold bitsText
  split
  · exact spaced_nil
  · exact spaced_cons _

theorem spaced_detail : Spaced n.detail := by
  have hif : ∀ (p : Prop) [Decidable p] (s : Bytes), Spaced (if p then utf8 " targ " ++ s else []) := by
    intro p _ s
    split
    · exact spaced_cons _
    · exact spaced_nil
  unfold detail
  dsimp only
  split
  · split
    · exact spaced_cons _
    · exact hif _ _
  · split
    · exact spaced_cons _
    · exact n.val.spaced_print
  · split
    · exact spaced_cons _
    · exact spaced_cons _
  · exact hif _ _
  · split
    · exact Path.spaced_print _
    · exact spaced_cons _
  · exact spaced_nil

theorem print_eq : ∃ name rest, n.print = name ++ 32 :: 35 :: (Bytes.ofNat n.id ++ rest) ∧ 35 ∉ name ∧
    name ≠ utf8 "goto" ∧ Spaced rest := by
  have hwant : Spaced (if n.want = .unknown then [] else [32] ++ utf8 n.want.name) := by
    split
    · exact spaced_nil
    · exact spaced_cons _
  refine ⟨if n.isEx then utf8 "ex-" ++ n.ex.nameBytes else n.code.nameBytes,
    (if n.want = .unknown then [] else [32] ++ utf8 n.want.name) ++ (n.bitsText ++ n.detail), ?_, ?_, ?_,
    hwant.append (n.spaced_bitsText.append n.spaced_detail)⟩
  · have hsign : utf8 " #" = [32, 35] := by decide +kernel
    simp [print, hsign]
  · split
    · have hex : 35 ∉ utf8 "ex-" := by decide +kernel
      exact List.not_mem_append hex n.ex.nameBytes_plain.1
    · exact n.code.nameBytes_plain.1
  · split
    · have hex : utf8 "ex-" = 101 :: utf8 "x-" := by decide +kernel
      have hgoto : utf8 "goto" = 103 :: utf8 "oto" := by decide +kernel
      rw [hex, hgoto]
      intro he
      have hhead := congrArg List.head? he
      cases hhead
    · exact n.code.nameBytes_plain.2

end Node

namespace Arena

def markOf (a : Arena) : ChainLine → ChainMark
  | .branch r => .branch (a.node r).id
  | .op r => .op (a.node r).id
  | .jump r => .jump (a.node r).id

/-- A text tells of a line what it is about, and shows the op that is listed. It is a line by itself, unless the op
has a line feed in a name. -/
structure IsLine (a : Arena) (l : ChainLine) (s : Bytes) : Prop where
  mark : ChainMark.read? s = some (a.markOf l)
  shows : ∀ r, l = .op r → 9 :: (a.node r).print <+: s
  single : (∀ r, l = .op r → 10 ∉ (a.node r).print) → 10 ∉ s

variable (a : Arena)

theorem lineFeed_notMem_ofNat (n : Nat) : 10 ∉ Bytes.ofNat n := by
  intro h
  have hdigit := Bytes.isDigit_of_mem_ofNat h
  cases hdigit

theorem isLine_branch (r : RecId) : ∃ s, a.printChainLine (.branch r) = s ++ [10] ∧ a.IsLine (.branch r) s := by
  have hfront : utf8 "branch #" = utf8 "branch " ++ [35] := by decide +kernel
  have hend : utf8 ":\n" = [58, 10] := by decide +kernel
  refine ⟨utf8 "branch " ++ 35 :: (Bytes.ofNat (a.node r).id ++ [58]), by simp [printChainLine, hfront, hend], ?_, ?_, ?_⟩
  · have hcolon : Past Bytes.isDigit [58] := by
      rintro b ⟨⟩
      rfl
    rw [ChainMark.read?_eq (by decide +kernel) hcolon, if_pos rfl, markOf]
  · rintro q ⟨⟩
  · have hword : 10 ∉ utf8 "branch " := by decide +kernel
    intro _
    simp [hword, lineFeed_notMem_ofNat]

theorem isLine_jump (r : RecId) : ∃ s, a.printChainLine (.jump r) = s ++ [10] ∧ a.IsLine (.jump r) s := by
  have hfront : utf8 "\tgoto #" = utf8 "\tgoto " ++ [35] := by decide +kernel
  have hend : utf8 "\n" = [10] := by decide +kernel
  refine ⟨utf8 "\tgoto " ++ 35 :: (Bytes.ofNat (a.node r).id ++ []), by simp [printChainLine, hfront, hend], ?_, ?_, ?_⟩
  · rw [ChainMark.read?_eq (by decide +kernel) spaced_nil.past, if_neg (by decide +kernel), if_pos rfl, markOf]
  · rintro q ⟨⟩
  · have hword : 10 ∉ utf8 "\tgoto " := by decide +kernel
    intro _
    simp [hword, lineFeed_notMem_ofNat]

theorem isLine_op (r : RecId) : ∃ s, a.printChainLine (.op r) = s ++ [10] ∧ a.IsLine (.op r) s := by
  obtain ⟨name, rest, hprint, hsign, hgoto, hrest⟩ := (a.node r).print_eq
  obtain ⟨other, hline, hother, hfeed⟩ : ∃ other, a.printChainLine (.op r) = 9 :: (a.node r).print ++ other ++ [10] ∧
      Spaced other ∧ 10 ∉ other := by
    have hword : 10 ∉ utf8 " other #" := by decide +kernel
    cases hz : (a.node r).other with
    | none => exact ⟨[], by simp [printChainLine, hz], spaced_nil, by simp⟩
    | some z =>
      exact ⟨utf8 " other #" ++ Bytes.ofNat (a.node z).id, by simp [printChainLine, hz], spaced_cons _,
        List.not_mem_append hword (lineFeed_notMem_ofNat _)⟩
  have hfront : 35 ∉ 9 :: (name ++ [32]) := by simp [hsign]
  have hnotBranch : 9 :: (name ++ [32]) ≠ utf8 "branch " := by
    have hbranch : utf8 "branch " = 98 :: utf8 "ranch " := by decide +kernel
    rw [hbranch]
    rintro ⟨⟩
  have hnotGoto : 9 :: (name ++ [32]) ≠ utf8 "\tgoto " := by
    have hword : utf8 "\tgoto " = 9 :: (utf8 "goto" ++ [32]) := by decide +kernel
    rw [hword]
    intro he
    exact hgoto (List.append_cancel_right (List.cons.inj he).2)
  refine ⟨9 :: (a.node r).print ++ other, hline, ?_, ?_, fun hr => ?_⟩
  · have hread := @ChainMark.read?_eq _ _ (a.node r).id hfront (hrest.append hother).past
    rw [if_neg hnotBranch, if_neg hnotGoto, List.head?_cons, if_pos rfl] at hread
    rw [markOf, ← hread, hprint]
    simp
  · rintro q ⟨⟩
    exact ⟨other, rfl⟩
  · exact List.not_mem_append (by simpa using hr r rfl) hfeed

/-- Every line is printed as a text that tells what it is about, and ends with a line feed. -/
theorem printChainLine_isLine (l : ChainLine) : ∃ s, a.printChainLine l = s ++ [10] ∧ a.IsLine l s := by
  cases l with
  | branch r => exact a.isLine_branch r
  | op r => exact a.isLine_op r
  | jump r => exact a.isLine_jump r

theorem printed_lines (ls : List ChainLine) : ∃ texts : List Bytes,
    ls.flatMap a.printChainLine = texts.flatMap (fun s => s ++ [10]) ∧ List.Forall₂ a.IsLine ls texts := by
  induction ls with
  | nil => exact ⟨[], rfl, .nil⟩
  | cons l ls ih =>
    obtain ⟨texts, hprint, htells⟩ := ih
    obtain ⟨s, hline, hs⟩ := a.printChainLine_isLine l
    exact ⟨s :: texts, by rw [List.flatMap_cons, List.flatMap_cons, hprint, hline], .cons hs htells⟩

end Arena

end OpTree
