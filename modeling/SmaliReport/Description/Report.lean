import SmaliReport.Description.Basic
import SmaliReport.Text.Digits

/-!
The text of a report, line by line. A section has a title and one indented line an entry; one
without entries still has an indented line, an empty one.
-/

namespace SmaliReport

def Classifier.text : Classifier → Text
  | .class name => "Class(name=".toList ++ name ++ [')']
  | .alias name => "TypeAlias(name=".toList ++ name ++ [')']
  | .parameter id => "TypeParameter(id=".toList ++ Text.ofInt id.toInt ++ [')']
  | .named name => "TypeParameter(name=".toList ++ name ++ [')']

def Function.entry (f : Function) : Text :=
  (f.signature.map fun s => s.name ++ s.desc).getD f.name ++ ", Arguments: ".toList ++
    Text.joined ", " f.arguments

def Property.entry (p : Property) : Text :=
  (p.field.map fun s => s.name ++ ':' :: s.desc).getD p.name

namespace Report

def indented (line : Text) : Text := "    ".toList ++ line

def entries (texts : List Text) : List Text :=
  (if texts.isEmpty then [[]] else texts).map indented

/-- An empty line, the title, and the entries. -/
def sectionOf (title : String) (texts : List Text) : List Text :=
  [] :: title.toList :: entries texts

def members (m : Members) : List Text :=
  sectionOf "Functions:" (m.functions.map Function.entry) ++
    sectionOf "Properties:" (m.properties.map Property.entry)

def classHead (c : ClassInfo) : List Text :=
  ["Type: Class".toList, "Class Info:".toList] ++
    [("Name: ", c.name),
     ("Supertypes: ", Text.joined ", " (c.supertypes.map Classifier.text)),
     ("Module Name: ", c.moduleName),
     ("Type Aliases: ", Text.joined ", " c.typeAliases),
     ("Companion Object: ", c.companion.getD []),
     ("Nested Classes:  ", Text.joined ", " c.nestedClasses),
     ("Enum Entries: ", Text.joined ", " c.enumEntries)].map
      fun (label, value) => indented (label.toList ++ value)

end Report

open Report in
/-- The lines of a report. -/
def Description.lines : Description → List Text
  | .class c =>
    classHead c ++ sectionOf "Constructors:" (c.constructors.map Function.entry) ++
      Report.members c.members
  | .fileFacade m => "Type: File Facade".toList :: Report.members m
  | .synthetic none => ["Type: Synthetic Class".toList, "Is Kotlin Lambda: False".toList]
  | .synthetic (some f) =>
    ["Type: Synthetic Class".toList, "Is Kotlin Lambda: True".toList] ++
      sectionOf "Functions:" [f.entry]
  | .multiFileFacade parts =>
    ["Type: Multi-File Class Facade".toList, "This multi-file class combines:".toList, []] ++
      entries (parts.map ("Class: ".toList ++ ·))
  | .multiFilePart facade m =>
    ["Type: Multi-File Class Part".toList, "Name: ".toList ++ facade] ++ Report.members m
  | .unknown => ["Type: Unknown".toList]

def Description.report (d : Description) : Text := Text.joined "\n" d.lines

end SmaliReport
