/-!
# Limits

A signature may be refused for its size: for its length in bytes, and for how deep its containers
are nested. Arrays and structs share one depth and dict-entries have another.
-/

namespace DBusTypes

/-- How many arrays and structs, and how many dict-entries, are open at once. -/
structure Depth where
  containers : UInt32
  entries : UInt32
  deriving DecidableEq, Repr

namespace Depth

def zero : Depth := ⟨0, 0⟩

/-- The greatest depth that can be counted. -/
def top : Depth := ⟨0xffffffff, 0xffffffff⟩

end Depth

/-- The limits that a signature is checked against. -/
structure Limits where
  /-- The greatest depth allowed. -/
  depth : Depth
  /-- The greatest length allowed in bytes, if there is one. -/
  length : Option Nat
  deriving DecidableEq, Repr

namespace Limits

/-- The limits of the D-Bus protocol: depths of 32 and a length of 255 bytes. -/
def standard : Limits := ⟨⟨32, 32⟩, some 255⟩

instance : Inhabited Limits := ⟨standard⟩

/-- These limits with another depth of arrays and structs. -/
def withContainers (l : Limits) (n : UInt32) : Limits :=
  { l with depth := { l.depth with containers := n } }

/-- These limits with another depth of dict-entries. -/
def withEntries (l : Limits) (n : UInt32) : Limits :=
  { l with depth := { l.depth with entries := n } }

/-- These limits with another greatest length; `none` allows any length. -/
def withLength (l : Limits) (n : Option Nat) : Limits := { l with length := n }

end Limits

end DBusTypes
