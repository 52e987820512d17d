/-! Values of names. A name may be given several times, and the last value counts. -/
namespace Fluxion

/-- Names with their values, in the order in which they were given. -/
abbrev Bindings (α : Type) := List (String × α)

namespace Bindings
variable {α : Type}

def lookup (name : String) : Bindings α → Option α
  | [] => none
  | (first, value) :: rest =>
    match lookup name rest with
    | some later => some later
    | none => if first = name then some value else none

def latest : Bindings α → Bindings α
  | [] => []
  | (name, value) :: rest =>
    if rest.any (·.1 = name) then latest rest else (name, value) :: latest rest

end Bindings
end Fluxion
