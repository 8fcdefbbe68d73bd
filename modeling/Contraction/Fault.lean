import Contraction.Expression.Reading
import Contraction.Measurement.Settings

/-!
# Faults

What makes an operation stop without an answer. A workspace hands some of these back as refusals;
the others are left to whoever asked.
-/

namespace Contraction

/-- Why an operation stops. -/
inductive Fault where
  | text (error : Misreading)
  | setting (error : SettingError)
  | conversion (fault : ConversionFault)
  /-- There is no setting with the name. -/
  | unknownSetting (name : String)
  /-- A value that should hold labels holds nothing one by one. -/
  | notLabels
  /-- A value that should be a text is none. -/
  | notText
  /-- A value that holds items is looked up. -/
  | notLookedUp
  /-- A part that is not there is asked for: the left child of a node that has a right one alone,
  the entries of a value that is no mapping, or the labels in an argument that was left out. -/
  | missingPart

def Fault.ofSettings : SettingsFault → Fault
  | .unknown name => unknownSetting name
  | .conversion fault => conversion fault
  | .unusable error => setting error

end Contraction
