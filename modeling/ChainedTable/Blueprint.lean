import ChainedTable.Table.Basic

/-!
# ChainedTable.Blueprint

Describing a table before it is made.

A `Blueprint` collects the policies and the thresholds that a table is fixed
to. `Blueprint.build` looks at three things, and the first that is wrong is
the answer: a hash policy must have been chosen, the thresholds must pass
`DensityBand.checked`, and the first bucket array must be granted. So a
rejected blueprint asks for no storage.
-/

namespace ChainedTable

/-- A description of a table to be made. -/
structure Blueprint (F ε K KS V VS : Type) where
  keys : StoragePolicy ε K KS
  values : StoragePolicy ε V VS
  hasher : Option (HashPolicy K)
  low : F
  high : F

namespace Blueprint

variable {F ε K KS V VS : Type} [Scale F]

/-- A description with the default thresholds, and without a hash policy. -/
def new (keys : StoragePolicy ε K KS) (values : StoragePolicy ε V VS) :
    Blueprint F ε K KS V VS where
  keys
  values
  hasher := none
  low := DensityBand.default.low
  high := DensityBand.default.high

/-- Chooses the hash policy. -/
def withHasher (plan : Blueprint F ε K KS V VS) (hasher : HashPolicy K) :
    Blueprint F ε K KS V VS :=
  { plan with hasher := some hasher }

/-- Chooses the thresholds, which are checked later. -/
def withDensity (plan : Blueprint F ε K KS V VS) (low high : F) :
    Blueprint F ε K KS V VS :=
  { plan with low, high }

/-- Makes the table that was described. -/
def build (plan : Blueprint F ε K KS V VS) (supply : Supply ε) :
    Except Failure ((policies : Policies ε K KS V VS) × Table F policies) :=
  match plan.hasher with
  | none => .error (.invalid .hashPolicyMissing)
  | some hasher =>
    match DensityBand.checked plan.low plan.high with
    | .error reason => .error (.invalid reason)
    | .ok band =>
      let policies := ⟨hasher, plan.keys, plan.values⟩
      (Table.withBand supply band).map (⟨policies, ·⟩)

end Blueprint

end ChainedTable
