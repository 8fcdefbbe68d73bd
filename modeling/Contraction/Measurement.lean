import Contraction.Measurement.Operations

/-!
# Measurement

Sets what the tensors of a branch cost: the bytes of every tensor, and what the contractions do, if
the labels of all of them can be placed. A measurement that has to stop keeps what it has set up to
then, so it answers with the branch as it left it.
-/

namespace Contraction

/-- What a measurement leaves: the branch as it was set, the answer, and the notices on the way. -/
structure Measurement where
  branch : Branch
  outcome : Except Fault Totals
  notices : List Notice := []

namespace Branch

/-- Sets the operations and their shares in a branch whose sizes are set. They are counted only if
every node with two children is a contraction of them; else the faulty ones are named and nothing
that concerns operations is set. -/
def measureOperations (sizing : Sizing) (elementBytes : Int) (b : Branch) : Measurement :=
  match sweep (visitOperations sizing elementBytes) {} b with
  | (survey, b, some fault) => ⟨b, .error fault, survey.notices⟩
  | (survey, b, none) =>
    let totals := survey.totals
    if totals.sound then
      let b := b.setTotal totals.operations
      if totals.contractions.isEmpty then ⟨b, .ok totals, survey.notices⟩
      else
        match b.shareOperations totals.operations with
        | (b, some fault) => ⟨b, .error fault, survey.notices⟩
        | (b, none) => ⟨b, .ok totals, survey.notices⟩
    else ⟨b.withoutOperations, .ok { faulty := totals.faulty }, survey.notices⟩

/-- Sets all measures of a branch under a configuration; there is nothing to do without a node. -/
def measureUnder (sizes : Table Datum) (config : Config) (b : Branch) : Measurement :=
  if b.isAbsent then ⟨b, .ok {}, []⟩
  else
    let sizing := Sizing.ofTable sizes (.int config.defaultSize)
    match b.withoutOperations.measureSizes sizing config.elementBytes with
    | (b, some fault) => ⟨b, .error fault, []⟩
    | (b, none) => b.measureOperations sizing config.elementBytes

/-- Sets all measures of a branch under the settings of a caller. -/
def measure (sizes : Table Datum) (settings : Settings) (b : Branch) : Measurement :=
  match settings.check with
  | .error fault => ⟨b, .error (.ofSettings fault), []⟩
  | .ok config => b.measureUnder sizes config

end Branch

end Contraction
