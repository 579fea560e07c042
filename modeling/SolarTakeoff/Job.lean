import SolarTakeoff.Formula.Basic

/-!
# Jobs

A job is the installation that material is counted for.  Nothing is assumed
of its numbers; a capacity may be on record for a job without a battery, and
per-battery rules then ignore it.
-/

namespace SolarTakeoff

structure Job where
  systemSize : Binary64
  panelCount : UInt32
  batteryCapacity : Option Binary64 := none
  hasBattery : Bool := false
  inverterType : Option String := none
  roofType : Option String := none
  isGroundMount : Option Bool := none
  stories : Option UInt32 := none
deriving DecidableEq

namespace Job

def withBattery (job : Job) (capacity : Binary64) : Job :=
  { job with hasBattery := true, batteryCapacity := some capacity }

/-- The capacity on record, for a job that has a battery. -/
def usableBattery? (job : Job) : Option Binary64 :=
  if job.hasBattery then job.batteryCapacity else none

/-- What formulas see of the job. -/
def inputs (job : Job) : Inputs
  | .panelCount => .ofNat job.panelCount.toNat
  | .systemSize => job.systemSize
  | .batteryCapacity => job.batteryCapacity.getD .zero
  | .hasBattery => if job.hasBattery then .ofNat 1 else .zero

end Job

end SolarTakeoff
