import OpTree.Text.Bytes

/-!
# Tuning

Sizes of the allocator, limits of the optimizer and switches. None of them changes what a
correct program computes.
-/

namespace OpTree

set_option autoImplicit false

structure Tuning where
  /-- Size of the first slab. -/
  slabUnits : Int := 64
  slabMaxUnits : Int := 2048
  /-- The next slab has the size of all slabs so far times this. -/
  slabGrowth : Int := 2
  /-- How many records of the free list are looked at. -/
  freeScan : Int := 8
  /-- How many branches the optimizer keeps for later. -/
  deferQueue : Int := 4
  /-- How many slots one op may introduce. -/
  padrangeMax : Int := 127
  fold : Bool := true
  mderef : Bool := true
  warnings : Bool := true
  deriving Repr, DecidableEq, Inhabited

namespace Tuning

def orDefault (x d : Int) : Int := if x = 0 then d else x

/-- A zero stands for the default. -/
def withDefaults (t : Tuning) : Tuning :=
  let d : Tuning := {}
  { t with
    slabUnits := orDefault t.slabUnits d.slabUnits
    slabMaxUnits := orDefault t.slabMaxUnits d.slabMaxUnits
    slabGrowth := orDefault t.slabGrowth d.slabGrowth
    freeScan := orDefault t.freeScan d.freeScan
    deferQueue := orDefault t.deferQueue d.deferQueue
    padrangeMax := orDefault t.padrangeMax d.padrangeMax }

/-- The first complaint about a tuning. -/
def complaint? (t : Tuning) : Option Bytes :=
  if t.slabUnits < 8 then some (utf8 "slab_units too small: " ++ Bytes.ofInt t.slabUnits)
  else if t.slabMaxUnits < t.slabUnits then
    some (utf8 "slab_max_units (" ++ Bytes.ofInt t.slabMaxUnits ++ utf8 ") < slab_units (" ++
      Bytes.ofInt t.slabUnits ++ utf8 ")")
  else if t.slabGrowth < 1 then some (utf8 "bad slab_growth: " ++ Bytes.ofInt t.slabGrowth)
  else if t.freeScan < 1 then some (utf8 "bad free_scan: " ++ Bytes.ofInt t.freeScan)
  else if t.deferQueue < 1 then some (utf8 "bad defer_queue: " ++ Bytes.ofInt t.deferQueue)
  else if t.padrangeMax < 2 then some (utf8 "bad padrange_max: " ++ Bytes.ofInt t.padrangeMax)
  else none

theorem withDefaults_default : withDefaults {} = {} := by decide

theorem withDefaults_withDefaults (t : Tuning) : t.withDefaults.withDefaults = t.withDefaults := by
  simp only [withDefaults, orDefault]
  congr 1 <;> split <;> simp_all

end Tuning

end OpTree
