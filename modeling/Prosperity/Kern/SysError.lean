import Mathlib.Data.Int.Notation

/-!
# Errors of the kernel calls

The members of the kernel's error table that the modelled system calls answer. A call returns the
negated code.
-/

namespace Prosperity.Kern

inductive SysError where
  | ePERM
  | eNOENT
  | eSRCH
  | eINTR
  | eBUSY
  | eINVAL
  | eAGAIN
  | eTIMEDOUT
  | eCANCELED
  deriving DecidableEq, Repr

def SysError.code : SysError → ℤ
  | ePERM => 1
  | eNOENT => 2
  | eSRCH => 3
  | eINTR => 4
  | eBUSY => 16
  | eINVAL => 22
  | eAGAIN => 35
  | eTIMEDOUT => 60
  | eCANCELED => 85

end Prosperity.Kern
