import DocTags.Reader

/-! A reader that keeps no values. Its state is the text and whether a full parse has run since the
text was set; every answer comes from new readers of that text. -/
namespace DocTags

structure PlainReader where
  text : Text
  parsed : Bool

namespace PlainReader

def ofText (s : Text) : PlainReader := ⟨s,false⟩

def fresh (p : PlainReader) : Reader := .ofText p.text

def parameter? (k : Text) (p : PlainReader) : Option Value :=
  p.fresh.parameters.1.lookup k

/-- Before a full parse a new reader looks the key up; after one the parameters have it. -/
def lookup (k : Text) (p : PlainReader) : Option Value :=
  if p.parsed then p.parameter? k else (p.fresh.lookup k).1

def declarations (tag : Text) (p : PlainReader) : Except ReadError (List VariableDeclaration) :=
  (VariableDeclaration.ofTag (p.lookup tag)).mapError (.invalidDeclaration tag)

def answer (p : PlainReader) : Request → Answer × PlainReader
  | .lookup k | .parameter k => (.value (p.lookup k),p)
  | .parseAll => (.done,{ p with parsed := true })
  | .parameters => (.parameters p.fresh.parameters.1,{ p with parsed := true })
  | .occurrences => (.occurrences p.fresh.occurrences.1,{ p with parsed := true })
  | .declarations tag => (.declarations (p.declarations tag),p)
  | .setContent s => (.done,ofText s)
  | .content => (.content p.text,p)

def answers (p : PlainReader) : List Request → List Answer
  | [] => []
  | q :: qs =>
    let (a,p) := p.answer q
    a :: answers p qs

end PlainReader
end DocTags
