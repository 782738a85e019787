import DocTags.Text

/-! References to a class or to a method of a class. -/
namespace DocTags

structure Reference where
  className : Text
  method : Option Text
  deriving DecidableEq

namespace Reference

def separator : Text := [':',':']

/-- The first separator ends the class; white space around both names is dropped. -/
def ofText (s : Text) : Reference :=
  match Text.cut? separator s with
  | some (c,m) => ⟨c.trim,some m.trim⟩
  | none => ⟨s.trim,none⟩

def toText (r : Reference) : Text :=
  match r.method with
  | some m => r.className ++ separator ++ m
  | none => r.className

def isEmpty (r : Reference) : Bool := r.className.isEmpty || r.method == some []

/-- Classes are compared first; a class comes before its methods. Names are compared by code points. -/
def le (r s : Reference) : Bool :=
  if r.className = s.className then
    match r.method,s.method with
    | none,_ => true
    | some _,none => false
    | some m,some n => decide (m.le n)
  else decide (r.className.le s.className)

def sort (rs : List Reference) : List Reference := rs.mergeSort le

end Reference
end DocTags
