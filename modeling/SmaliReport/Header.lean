import SmaliReport.Region
import SmaliReport.Text.Escape

/-!
The header of a Kotlin class as its annotation states it. The payload texts `d1` are unescaped;
all other texts stand as written.
-/

namespace SmaliReport

structure Header where
  kind : Int32 := 1
  extraInt : Int32 := 0
  extraString : Text := []
  packageName : Text := []
  bytecodeVersion : List Int32 := [1, 1, 3]
  metadataVersion : List Int32 := [1, 1, 13]
  data1 : List Text
  data2 : List Text := []
  data1_ne_nil : data1 ≠ []
  deriving DecidableEq

namespace Header

open Region

/-- The header with nothing but a payload; there is none without payload texts. -/
def ofPayload? (data1 : List Text) : Option Header :=
  if h : data1 = [] then none else some { data1, data1_ne_nil := h }

def ofRegion? (region : Region) : Option Header :=
  (ofPayload? ((elements "d1".toList [] region).map Text.unescape)).map fun header =>
    { header with
      kind := integer "k".toList header.kind region
      extraInt := integer "xi".toList header.extraInt region
      extraString := single "xs".toList region
      packageName := single "pn".toList region
      bytecodeVersion := versionOf "bv".toList ["0x1", "0x1", "0x3"] region
      metadataVersion := versionOf "mv".toList ["0x1", "0x1", "0xd"] region
      data2 := elements "d2".toList [] region }
where
  /-- Elements that are no literals are left out. -/
  versionOf (key : Text) (default : List String) (region : Region) : List Int32 :=
    (elements key (default.map String.toList) region).filterMap hexLiteral?

def ofSmali? (smali : Text) : Option Header := ofRegion? (Region.ofSmali smali)

end Header

end SmaliReport
