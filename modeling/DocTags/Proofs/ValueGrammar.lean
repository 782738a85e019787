import DocTags.Proofs.WholeNumbers
import DocTags.ValuePrinter
import DocTags.ValueReader

/-! The texts of a value: its tokens in order, with any blanks between them. The compact and the pretty
text of a value are two of them. -/
namespace DocTags
namespace Value

def Spaces (g : Text) : Prop := ∀ c ∈ g, ValueReader.isSpace c = true

/-- A key, a colon and the text of a field's value, with blanks around the colon. -/
def fieldText (k g g' t : Text) : Text := QuotedText.write k ++ (g ++ ':' :: (g' ++ t))

mutual
/-- A text that denotes a value. Floats have none here, and no object has a key twice. -/
inductive Written : Value → Text → Prop
  | null : Written null "null".toList
  | yes : Written (bool true) "true".toList
  | no : Written (bool false) "false".toList
  | int {n : Int} (hn : NumberText.fitsWord n = true) : Written (int n) (NumberText.write n)
  | string (s : Text) : Written (string s) (QuotedText.write s)
  | emptyList {g : Text} (hg : Spaces g) : Written (list []) ('[' :: (g ++ [']']))
  | list {v : Value} {vs : List Value} {g t u : Text} (hg : Spaces g) (hv : Written v t)
      (hvs : WrittenItems vs u) : Written (list (v :: vs)) ('[' :: (g ++ (t ++ u)))
  | emptyObject {g : Text} (hg : Spaces g) : Written (object []) ('{' :: (g ++ ['}']))
  | object {k : Text} {v : Value} {fs : List (Text × Value)} {g g₁ g₂ t u : Text}
      (hn : (KeyedList.keys ((k,v) :: fs)).Nodup) (hg : Spaces g) (h₁ : Spaces g₁) (h₂ : Spaces g₂)
      (hv : Written v t) (hfs : WrittenFields fs u) :
      Written (object ((k,v) :: fs)) ('{' :: (g ++ (fieldText k g₁ g₂ t ++ u)))

inductive WrittenItems : List Value → Text → Prop
  | done {g : Text} (hg : Spaces g) : WrittenItems [] (g ++ [']'])
  | more {v : Value} {vs : List Value} {g g' t u : Text} (hg : Spaces g) (hg' : Spaces g')
      (hv : Written v t) (hvs : WrittenItems vs u) :
      WrittenItems (v :: vs) (g ++ ',' :: (g' ++ (t ++ u)))

inductive WrittenFields : List (Text × Value) → Text → Prop
  | done {g : Text} (hg : Spaces g) : WrittenFields [] (g ++ ['}'])
  | more {k : Text} {v : Value} {fs : List (Text × Value)} {g g' g₁ g₂ t u : Text} (hg : Spaces g)
      (hg' : Spaces g') (h₁ : Spaces g₁) (h₂ : Spaces g₂) (hv : Written v t)
      (hfs : WrittenFields fs u) :
      WrittenFields ((k,v) :: fs) (g ++ ',' :: (g' ++ (fieldText k g₁ g₂ t ++ u)))
end

mutual
/-- Whether the value can be told from its text: it has no float, no whole number that exceeds a word
and no object with a key twice. -/
def exact : Value → Bool
  | int n => NumberText.fitsWord n
  | float _ => false
  | list vs => itemsExact vs
  | object fs => decide (KeyedList.keys fs).Nodup && fieldsExact fs
  | _ => true

def itemsExact : List Value → Bool
  | [] => true
  | v :: vs => exact v && itemsExact vs

def fieldsExact : List (Text × Value) → Bool
  | [] => true
  | (_,v) :: fs => exact v && fieldsExact fs
end

theorem spaces_nil : Spaces [] := by simp [Spaces]

theorem spaces_space : Spaces [' '] := by
  intro c hc
  obtain rfl := List.mem_singleton.mp hc
  rfl

theorem spaces_newLine (level : Nat) : Spaces (newLine level) := by
  intro c hc
  rcases List.mem_cons.mp hc with rfl | hc
  · rfl
  · obtain rfl := List.eq_of_mem_replicate hc
    rfl

mutual
theorem written_compact : ∀ {v : Value}, v.exact = true → Written v v.compact
  | null,_ => .null
  | bool true,_ => .yes
  | bool false,_ => .no
  | int _,h => .int (by simpa only [exact] using h)
  | float _,h => by simp [exact] at h
  | string s,_ => .string s
  | list [],_ => .emptyList spaces_nil
  | list (v :: vs),h => by
    simp only [exact,itemsExact,Bool.and_eq_true] at h
    exact .list spaces_nil (written_compact h.1) (writtenItems_compact h.2)
  | object [],_ => .emptyObject spaces_nil
  | object ((k,v) :: fs),h => by
    simp only [exact,fieldsExact,Bool.and_eq_true,decide_eq_true_eq] at h
    have hh := Written.object h.1 spaces_nil spaces_nil spaces_nil (written_compact h.2.1)
      (writtenFields_compact h.2.2)
    simpa [fieldText,compact] using hh

theorem writtenItems_compact : ∀ {vs : List Value}, itemsExact vs = true →
    WrittenItems vs (compactItems vs)
  | [],_ => .done spaces_nil
  | v :: vs,h => by
    simp only [itemsExact,Bool.and_eq_true] at h
    exact .more spaces_nil spaces_nil (written_compact h.1) (writtenItems_compact h.2)

theorem writtenFields_compact : ∀ {fs : List (Text × Value)}, fieldsExact fs = true →
    WrittenFields fs (compactFields fs)
  | [],_ => .done spaces_nil
  | (k,v) :: fs,h => by
    simp only [fieldsExact,Bool.and_eq_true] at h
    have hh := WrittenFields.more (k := k) spaces_nil spaces_nil spaces_nil spaces_nil
      (written_compact h.1) (writtenFields_compact h.2)
    simpa [fieldText,compactFields] using hh
end

mutual
theorem written_pretty : ∀ {v : Value} (level : Nat), v.exact = true → Written v (v.pretty level)
  | null,_,_ => .null
  | bool true,_,_ => .yes
  | bool false,_,_ => .no
  | int _,_,h => .int (by simpa only [exact] using h)
  | float _,_,h => by simp [exact] at h
  | string s,_,_ => .string s
  | list [],_,_ => .emptyList spaces_nil
  | list (v :: vs),level,h => by
    simp only [exact,itemsExact,Bool.and_eq_true] at h
    exact .list (spaces_newLine (level+1)) (written_pretty (level+1) h.1)
      (writtenItems_pretty level h.2)
  | object [],_,_ => .emptyObject spaces_nil
  | object ((k,v) :: fs),level,h => by
    simp only [exact,fieldsExact,Bool.and_eq_true,decide_eq_true_eq] at h
    have hh := Written.object h.1 (spaces_newLine (level+1)) spaces_nil spaces_space
      (written_pretty (level+1) h.2.1) (writtenFields_pretty level h.2.2)
    simpa [fieldText,pretty] using hh

theorem writtenItems_pretty : ∀ {vs : List Value} (level : Nat), itemsExact vs = true →
    WrittenItems vs (prettyItems level vs)
  | [],level,_ => .done (spaces_newLine level)
  | v :: vs,level,h => by
    simp only [itemsExact,Bool.and_eq_true] at h
    exact .more spaces_nil (spaces_newLine (level+1)) (written_pretty (level+1) h.1)
      (writtenItems_pretty level h.2)

theorem writtenFields_pretty : ∀ {fs : List (Text × Value)} (level : Nat),
    fieldsExact fs = true → WrittenFields fs (prettyFields level fs)
  | [],level,_ => .done (spaces_newLine level)
  | (k,v) :: fs,level,h => by
    simp only [fieldsExact,Bool.and_eq_true] at h
    have hh := WrittenFields.more (k := k) spaces_nil (spaces_newLine (level+1)) spaces_nil
      spaces_space (written_pretty (level+1) h.1) (writtenFields_pretty level h.2)
    simpa [fieldText,prettyFields] using hh
end

end Value
end DocTags
