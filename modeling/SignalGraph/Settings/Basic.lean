/-!
# SignalGraph.Settings.Basic

The settings of a build and their defaults.
-/

namespace SignalGraph

structure Settings where
  /-- The full name of the module to run. -/
  mainProcessor : Option String := none
  /-- The greatest call stack in bytes; zero means no limit. -/
  maxStackSize : Nat := 20 * 1024 * 1024
  /-- The longest delay of a connection in frames. -/
  maxDelayLength : Nat := 256 * 1024
  /-- The greatest number of elements of an array of nodes or endpoints. -/
  maxArraySize : Nat := 256
  /-- The greatest number of modules that specialisation may add. -/
  maxSpecialisations : Nat := 64
deriving DecidableEq, Repr, Inhabited

end SignalGraph
