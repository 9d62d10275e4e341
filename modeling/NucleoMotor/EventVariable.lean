import Mathlib.Tactic

/-!
# `EventVariable`

The variable of `source/EventVariable.h`, whose assignment calls the functions attached to it.  `G`
is the rest of the program's state, which these functions read and write; one that takes the value
by reference returns it.
-/

namespace NucleoMotor

structure EventVariable (G T : Type) where
  value : T
  callback : Option (G → G)
  statefulCallback : Option (T → G → T × G)

namespace EventVariable

variable {G T : Type}

/-- The constructors with a `voidFuncPtr`; no constructor calls the function. -/
def ofCallback (initialValue : T) (funcPtr : G → G) : EventVariable G T :=
  ⟨initialValue, some funcPtr, none⟩

/-- The constructors with a `statefulFuncPtr`. -/
def ofStatefulCallback (initialValue : T) (funcPtr : T → G → T × G) : EventVariable G T :=
  ⟨initialValue, none, some funcPtr⟩

/-- `operator=`. -/
def assign (v : EventVariable G T) (rhs : T) (g : G) : EventVariable G T × G :=
  let v := { v with value := rhs }
  let g := match v.callback with
    | some callback => callback g
    | none => g
  match v.statefulCallback with
  | some statefulCallback =>
    let (value, g) := statefulCallback v.value g
    ({ v with value := value }, g)
  | none => (v, g)

/-- `operator!`. -/
def not (v : EventVariable G Bool) : Bool := !v.value

/-- An assignment stores the value and then calls the `voidFuncPtr`. -/
@[simp] theorem assign_ofCallback (value : T) (funcPtr : G → G) (rhs : T) (g : G) :
    (ofCallback value funcPtr).assign rhs g = (ofCallback rhs funcPtr, funcPtr g) := rfl

/-- The `statefulFuncPtr` gets the new value, and may change it once more. -/
@[simp] theorem assign_ofStatefulCallback (value : T) (funcPtr : T → G → T × G) (rhs : T)
    (g : G) : (ofStatefulCallback value funcPtr).assign rhs g =
      (ofStatefulCallback (funcPtr rhs g).1 funcPtr, (funcPtr rhs g).2) := rfl

end EventVariable

end NucleoMotor
