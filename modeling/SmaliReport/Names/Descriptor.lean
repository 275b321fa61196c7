import SmaliReport.Text.Digits

/-!
Descriptors of Kotlin classes on the JVM. Builtin classes have the descriptors of their Java
counterparts; any other class id gives its internal name, with `$` between nested names.
-/

namespace SmaliReport.Descriptor

/-- The descriptor of a class with this internal name. -/
def ofInternal (name : Text) : Text := 'L' :: name ++ [';']

def primitives : List (String × String) :=
  [("Boolean", "Z"), ("Char", "C"), ("Byte", "B"), ("Short", "S"), ("Int", "I"), ("Float", "F"),
   ("Long", "J"), ("Double", "D")]

/-- Classes below `kotlin/` that stand for a Java class. -/
def mapped : List (String × String) :=
  [("Any", "java/lang/Object"), ("Nothing", "java/lang/Void"),
   ("Annotation", "java/lang/annotation/Annotation")] ++
  (["String", "CharSequence", "Throwable", "Cloneable", "Number", "Comparable", "Enum"].map
    fun name => (name, "java/lang/" ++ name)) ++
  (["Iterator", "Collection", "List", "Set", "Map", "ListIterator"].flatMap fun name =>
    [("collections/" ++ name, "java/util/" ++ name),
     ("collections/Mutable" ++ name, "java/util/" ++ name)]) ++
  [("collections/Iterable", "java/lang/Iterable"),
   ("collections/MutableIterable", "java/lang/Iterable"),
   ("collections/Map.Entry", "java/util/Map$Entry"),
   ("collections/MutableMap.MutableEntry", "java/util/Map$Entry")] ++
  ((List.range 23).flatMap fun arity =>
    [(s!"Function{arity}", s!"kotlin/jvm/functions/Function{arity}"),
     (s!"reflect/KFunction{arity}", "kotlin/reflect/KFunction")]) ++
  (["Char", "Byte", "Short", "Int", "Float", "Long", "Double", "String", "Enum"].map fun name =>
    (name ++ ".Companion", "kotlin/jvm/internal/" ++ name ++ "CompanionObject"))

/-- Class ids with a descriptor of their own. -/
def builtins : List (Text × Text) :=
  (primitives.flatMap fun (name, desc) =>
    [("kotlin/".toList ++ name.toList, desc.toList),
     ("kotlin/".toList ++ name.toList ++ "Array".toList, '[' :: desc.toList)]) ++
  [("kotlin/Unit".toList, ['V'])] ++
  mapped.map fun (kotlin, java) => ("kotlin/".toList ++ kotlin.toList, ofInternal java.toList)

def ofClassId (id : Text) : Text :=
  (builtins.lookup id).getD (ofInternal (Text.swap '.' '$' id))

end SmaliReport.Descriptor
