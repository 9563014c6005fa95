import Mathlib

/-!
# Return codes (`ob_define.h`)

The return codes that the modelled functions produce or compare with, by name, and every other
code a callee may hand up.
-/

namespace OceanBase

inductive Ret where
  | success
  | error
  | invalidArgument
  | notInit
  | iterEnd
  | responseTimeOut
  | memOverflow
  | errUnexpected
  | sizeOverflow
  | eAgain
  | bufNotEnough
  | discontinuousLog
  | lastLogRuinned
  | lockNotMatch
  | deadLock
  | stateNotMatch
  | transRollbacked
  | logTooLarge
  | errExclusiveLockConflict
  | dataNotServe
  | entryExist
  | entryNotExist
  | initTwice
  | canceled
  | alreadyDone
  | processTimeout
  | notImplement
  | notSupported
  | upsAcquireTableFail
  | upsTableNotFrozen
  | notMaster
  | beyondTheRange
  | exceedMemLimit
  | other (code : Int)
  deriving DecidableEq, Repr

end OceanBase
