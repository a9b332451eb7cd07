import OpTree.Listing.Source

/-!
# Subs of a listing

A listing is a sequence of `(sub name form...)` lists. A sub list inside of a sub is a nested sub;
every other form belongs to the body.
-/

namespace OpTree

set_option autoImplicit false

inductive Sub where
  | mk (name : Bytes) (body : List Form) (subs : List Sub)
  deriving Inhabited

namespace Sub

def name : Sub → Bytes
  | mk n _ _ => n

def body : Sub → List Form
  | mk _ b _ => b

def subs : Sub → List Sub
  | mk _ _ s => s

/-- A complaint about a form with the place it comes from. -/
def complain (src : Source) (f : Form) (msg : Bytes) : Failure :=
  match f.span? with
  | some (pos, _) => .malformed (src.nameAt pos) (src.line pos) msg
  | none => .malformed [] 0 msg

def isSub (src : Source) (f : Form) : Bool := f.isListOf src.text (utf8 "sub")

mutual

/-- The sub a form stands for. -/
def ofForm (src : Source) : Form → Except Failure Sub
  | f@(.list _ _ items) =>
    if isSub src f then
      match items with
      | _ :: .atom p s :: rest => do
        let (body, subs) ← ofItems src rest
        return mk (slice src.text p s) body subs
      | _ :: x :: _ => .error (complain src x (utf8 "sub name expected"))
      | _ => .error (complain src f (utf8 "sub name expected"))
    else .error (complain src f (utf8 "sub form expected"))
  | f => .error (complain src f (utf8 "sub form expected"))

def ofItems (src : Source) : List Form → Except Failure (List Form × List Sub)
  | [] => .ok ([], [])
  | f :: rest =>
    if isSub src f then do
      let s ← ofForm src f
      let (body, subs) ← ofItems src rest
      return (body, s :: subs)
    else do
      let (body, subs) ← ofItems src rest
      return (f :: body, subs)

end

def readAll (src : Source) : Except Failure (List Sub) := do
  let forms ← src.forms
  forms.mapM (ofForm src)

end Sub

end OpTree
