import PointsTo.Text.Decimal

/-!
The tuning of the engine, shared by all its calls.
-/

namespace PointsTo

structure Tuning where
  maxHeap : String := "1024m"
  bddCache : UInt64 := 1500000
  bddNodes : UInt64 := 40000000
  numberingType : String := "scc"
  learnBestOrder : Bool := false
  singleIgnore : Bool := true
  clinit : Bool := false
  filterNull : Bool := true
  unknownTypes : Bool := false
deriving DecidableEq

namespace Tuning

def yesNo (flag : Bool) : String :=
  if flag then "yes" else "no"

def solverProperties (t : Tuning) : List (String × String) :=
  [("learnbestorder", yesNo t.learnBestOrder),
    ("singleignore", yesNo t.singleIgnore),
    ("bddcache", Decimal.text t.bddCache.toNat),
    ("bddnodes", Decimal.text t.bddNodes.toNat),
    ("numberingtype", t.numberingType),
    ("pa.clinit", yesNo t.clinit),
    ("pa.filternull", yesNo t.filterNull),
    ("pa.unknowntypes", yesNo t.unknownTypes)]

end Tuning
end PointsTo
