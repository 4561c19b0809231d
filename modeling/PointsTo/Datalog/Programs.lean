import PointsTo.Path

/-!
The fixed Datalog programs of the pipeline, and filling in the directory that
their relations are in.
-/

namespace PointsTo
namespace Datalog

def placeholder : List Char := "\x7bbasedir\x7d".toList

/-- Put `value` for each `marker`, left to right. The count says how many
characters of a marker are still to be passed over. -/
def replaceFrom (marker value : List Char) : Nat → List Char → List Char
  | _, [] => []
  | passing + 1, _ :: cs => replaceFrom marker value passing cs
  | 0, c :: cs =>
    if marker.isPrefixOf (c :: cs) then value ++ replaceFrom marker value (marker.length - 1) cs
    else c :: replaceFrom marker value 0 cs

def render (template : String) (baseDir : Path) : String :=
  String.ofList (replaceFrom placeholder baseDir.text.toList 0 template.toList)

def domainFile : String := "fielddomains.pa"

/-- Context numbering over the call graph. With a context domain that is too
small it only tells how many paths it needs. -/
def numbering : String :=
  "# -*- Mode: C; indent-tabs-mode: nil; c-basic-offset: 4 -*-
### Context-sensitive inclusion-based pointer analysis using cloning
#
# Calculates the numbering based on the call graph relation.

.basedir \"\x7bbasedir\x7d\"
.include \"fielddomains.pa\"

.bddnodes 10000000
.bddcache 1000000

.bddvarorder C0_C1_N0_F0_I0_M1_M0_V1xV0_VC1xVC0_T0_Z0_T1_H0_H1_G0

### Relations

mI (method:M0, invoke:I0, name:N0) input
IE0 (invoke:I0, target:M0) input

roots (method:M0) input

mI0 (method:M0, invoke:I0)
IEnum (invoke:I0, target:M0, ccaller:VC1, ccallee:VC0) output

### Rules

mI0(m,i) :- mI(m,i,_).
IEnum(i,m,vc2,vc1) :- roots(m), mI0(m,i), IE0(i,m). number
"

def dumpTypes : String :=
  ".basedir \"\x7bbasedir\x7d\"

### Domains

.include \"fielddomains.pa\"

.bddvarorder M1_I0_N0_F0_M0_V1xV0_H1_Z0_T0_T1_H0
### Relations

aT (type1:T0, type2:T1) input outputtuples
"

end Datalog
end PointsTo
