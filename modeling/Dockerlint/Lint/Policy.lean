import Dockerlint.Text.Table

/-!
# Registry policies

A policy lists registries. It is enforced if it is switched on and lists at least one; base images
must then come from a listed registry.

## Main definitions

* `Policy`: the switch and the registries
* `Policy.isEnforced`, `Policy.allows`: whether and what a policy restricts
-/

namespace Dockerlint

/-- Which registries base images may come from. -/
structure Policy where
  /-- Whether only listed registries may be used. -/
  onlyDefined : Bool := false
  /-- The repositories that may push to each listed registry. -/
  registries : Table (List Text) := .empty
deriving DecidableEq, Repr

namespace Policy

/-- The policy with the switch set, and the same registries. -/
def withOnlyDefined (p : Policy) (enabled : Bool) : Policy := { p with onlyDefined := enabled }

/-- The names of the listed registries, in order. -/
def allowed (p : Policy) : List Text := p.registries.keys

/-- Whether base images are checked at all. -/
def isEnforced (p : Policy) : Bool := p.onlyDefined && !p.registries.isEmpty

/-- Whether a registry is listed; a reference without a registry is not. -/
def allows (p : Policy) : Option Text → Bool
  | some name => p.registries.contains name
  | none => false

end Policy

end Dockerlint
