import DocTags.Annotations
import DocTags.ValuePrinter
import DocTags.VariableDeclaration

/-! Reports: what was read for each target, written as JSON for programs or as plain lines. -/
namespace DocTags

inductive Reading
  | parameters (annotations : Annotations)
  | value (v : Option Value)
  | declarations (ds : List VariableDeclaration)

structure Entry where
  file : Option Text
  target : Text
  reading : Reading

namespace Reading

/-- A key that stands once has its value, any other the list of its values. -/
def parameterField (e : Text × List Value) : Text × Value :=
  match e with
  | (k,[v]) => (k,v)
  | (k,vs) => (k,.list vs)

def declarationValue (d : VariableDeclaration) : Value :=
  .object [("type".toList,.string d.type),("name".toList,.string d.name)]

def field : Reading → Text × Value
  | parameters es => ("parameters".toList,.object (es.map parameterField))
  | value v => ("value".toList,v.getD .null)
  | declarations ds => ("declarations".toList,.list (ds.map declarationValue))

/-- A value in plain text: texts as they are, all else as JSON. -/
def plain : Value → Text
  | .string s => s
  | v => v.compact

def plainLine (s : Text) : Text := ' ' :: ' ' :: (s ++ ['\n'])

/-- True is what a bare tag means. -/
def tagLine (k : Text) : Value → Text
  | .bool true => plainLine ('@' :: k)
  | v => plainLine ('@' :: (k ++ ' ' :: plain v))

def plainLines : Reading → List Text
  | parameters es => es.flatMap fun e => e.2.map (tagLine e.1)
  | value (some v) => [plainLine (plain v)]
  | value none => [plainLine "(not found)".toList]
  | declarations ds => ds.map fun d => plainLine (d.type ++ ' ' :: d.name)

end Reading

namespace Entry

def toValue (e : Entry) : Value :=
  let file := e.file.map fun f => ("file".toList,Value.string f)
  .object (file.toList ++ [("target".toList,.string e.target),e.reading.field])

def header (e : Entry) : Text :=
  match e.file with
  | some f => f ++ ' ' :: (e.target ++ ['\n'])
  | none => e.target ++ ['\n']

end Entry

namespace Report

inductive Format
  | json
  | plain
  deriving DecidableEq

def Format.ofName? (name : Text) : Option Format :=
  if name = "json".toList then some .json
  else if name = "text".toList ∨ name = "txt".toList then some .plain
  else none

def json (es : List Entry) : Text := (Value.list (es.map Entry.toValue)).pretty 0 ++ ['\n']

def plain (es : List Entry) : Text :=
  es.flatMap fun e => e.header ++ e.reading.plainLines.flatten

def write : Format → List Entry → Text
  | .json,es => json es
  | .plain,es => plain es

end Report
end DocTags
