import DBusTypes.TypeTree
import DBusTypes.Signature
import DBusTypes.Json.Printer
import DBusTypes.Command.Arguments

/-!
# Reports

A report has one record for each text that was checked, in order. A record says whether the text is
a signature; of a signature it has the types, and of any other text what is wrong with it.

All texts are checked before the first record is written, on one thread or on several.

* `Report.verdict` — whether a text is a signature
* `Report.verdicts` — the verdicts on a list of texts
* `Report.textRecord`, `Report.jsonRecord` — a record in words and as a JSON value
* `Report.written` — a record in the format that is asked for
* `Report.draft` — the report on a list of texts, and whether all of them are valid
-/

namespace DBusTypes.Report

/-! ## Checking -/

/-- The limits that texts are checked against. -/
def limits (o : Options) : Limits :=
  if o.anyLength then Limits.standard.withLength none else .standard

/-- The signature that a text is, or why it is none. -/
def verdict (o : Options) (text : String) : Except BuildError Signature :=
  Signature.within (limits o) (utf8 text)

/-- The verdicts on texts that are checked one after the other. -/
def verdictsInTurn (o : Options) (texts : List String) : List (Except BuildError Signature) :=
  texts.map (verdict o)

/-- The verdicts on texts that are checked at the same time. Whichever is ready first, they are in the
order of the texts. -/
def verdictsAtOnce (o : Options) (texts : List String) : List (Except BuildError Signature) :=
  let tasks := texts.map fun text => Task.spawn fun _ => verdict o text
  tasks.map Task.get

/-- The verdicts on a list of texts, found in turn if there is to be one thread. Otherwise they are found
at once, on as many threads as are set or, if none are, as there are processors. -/
def verdicts (o : Options) (texts : List String) : List (Except BuildError Signature) :=
  if o.threads = 1 then verdictsInTurn o texts else verdictsAtOnce o texts

/-! ## Records -/

/-- A line of a tree: two blanks for each level, and the type. -/
def treeLine (level : Nat) (x : Excerpt) : Bytes :=
  List.replicate (2 * level) 0x20 ++ (x.text ++ [0x0a])

/-- The lines that show the types of a signature, each indented under what it is in. -/
def typeLines (tree : Bool) (s : Signature) : Bytes :=
  if tree then (TypeTree.preorderAll 1 s.excerpts.forest).flatMap fun r => treeLine r.1 r.2
  else s.excerpts.toList.flatMap (treeLine 1)

def textRecord (tree : Bool) (text : String) : Except BuildError Signature → Bytes
  | .ok s =>
    utf8 text ++ (utf8 (": " ++ toString s.count ++ " single complete type(s)\n") ++
      typeLines tree s)
  | .error e => utf8 text ++ utf8 (": error: " ++ e.message ++ "\n")

/-- A type, and all that is in it, as a JSON value. -/
def treeJson : TypeTree → Json
  | .node x children =>
    .record [("type", .string x.text), ("code", .text (String.singleton x.code.char)),
      ("alignment", .nat x.code.alignment), ("children", .array (children.map treeJson))]

/-- The types of a signature as a JSON value. -/
def typesJson (tree : Bool) (s : Signature) : Json :=
  .array (if tree then s.excerpts.forest.map treeJson
    else s.excerpts.toList.map fun x => .string x.text)

/-- What is wrong with a text as a JSON value. -/
def errorJson (e : BuildError) : Json :=
  let (kind, offset) : Json × Json := match e with
    | .rejected r => (.text r.kind, .nat r.offset)
    | .notSingle _ | .outOfMemory _ => (.null, .null)
  .record [("kind", kind), ("offset", offset), ("message", .text e.message)]

def jsonRecord (tree : Bool) (text : String) : Except BuildError Signature → Json
  | .ok s =>
    .record [("signature", .text text), ("valid", .bool true), ("types", typesJson tree s)]
  | .error e =>
    .record [("signature", .text text), ("valid", .bool false), ("error", errorJson e)]

/-- What is written of a text and its verdict, in the format that is asked for. -/
def written (o : Options) (text : String) (r : Except BuildError Signature) : Bytes :=
  match o.format with
  | .text => textRecord o.tree text r
  | .json => (jsonRecord o.tree text r).pretty 0 ++ [0x0a]
  | .jsonLines => (jsonRecord o.tree text r).compact ++ [0x0a]

/-- The record of a text in the format that is asked for. -/
def record (o : Options) (text : String) : Bytes := written o text (verdict o text)

/-! ## Reports -/

/-- A report in the making. -/
structure Draft where
  /-- What is written so far. -/
  output : Array UInt8
  /-- Whether all texts so far are valid. -/
  allValid : Bool

/-- Goes on with a text and the verdict on it. -/
def Draft.add (o : Options) (d : Draft) (text : String) (r : Except BuildError Signature) : Draft where
  output := d.output ++ written o text r
  allValid := if r.isOk then d.allValid else false

/-- Goes on with texts and the verdicts on them, one after the other. -/
def Draft.addAll (o : Options) (d : Draft) (xs : List (String × Except BuildError Signature)) : Draft :=
  xs.foldl (fun d x => d.add o x.1 x.2) d

/-- The report on a list of texts: all are checked, and then each is written with its verdict. -/
def draft (o : Options) (texts : List String) : Draft :=
  Draft.addAll o ⟨#[], true⟩ (texts.zip (verdicts o texts))

/-- The records of a list of texts. -/
def records (o : Options) (texts : List String) : Bytes := (draft o texts).output.toList

/-- Whether all texts of a list are valid. -/
def allValid (o : Options) (texts : List String) : Bool := (draft o texts).allValid

end DBusTypes.Report
