/-!
# Faults

The ways a modelled kernel routine stops the system instead of returning.
-/

namespace Bsd386.Kern

/-- A `panic` with its message, an access through a null pointer, an access through a pointer to
something else than its type says, or a loop that does not end. -/
inductive Fault
  | panic (message : String)
  | nullPointer
  | wildPointer
  | endless
  deriving DecidableEq, Repr

/-- Follow a pointer, `none` being the null pointer. -/
def deref {α : Type u} : Option α → Except Fault α
  | some target => .ok target
  | none => .error .nullPointer

end Bsd386.Kern
