import DocTags.Proofs.ReadingValues
import DocTags.Report
import Mathlib.Data.List.Forall2

/-! The JSON report can be read back. What its text denotes is told entry by entry, without the writer:
which fields an object has, and what stands under a key that occurs once or several times. -/
namespace DocTags

namespace Value

theorem itemsExact_iff {vs : List Value} : itemsExact vs = true ↔ ∀ v ∈ vs, v.exact = true := by
  induction vs with
  | nil => simp [itemsExact]
  | cons v vs ih => simp [itemsExact,ih]

theorem fieldsExact_iff {fs : List (Text × Value)} :
    fieldsExact fs = true ↔ ∀ f ∈ fs, f.2.exact = true := by
  induction fs with
  | nil => simp [fieldsExact]
  | cons f fs ih => simp [fieldsExact,ih]

theorem itemsDepth_le_iff {vs : List Value} {n : Nat} :
    itemsDepth vs ≤ n ↔ ∀ v ∈ vs, v.depth ≤ n := by
  induction vs with
  | nil => simp [itemsDepth]
  | cons v vs ih => rw [itemsDepth,Nat.max_le,ih,List.forall_mem_cons]

theorem fieldsDepth_le_iff {fs : List (Text × Value)} {n : Nat} :
    fieldsDepth fs ≤ n ↔ ∀ f ∈ fs, f.2.depth ≤ n := by
  induction fs with
  | nil => simp [fieldsDepth]
  | cons f fs ih => rw [fieldsDepth,Nat.max_le,ih,List.forall_mem_cons]

/-- A value that a reader gives back from inside `n` lists and objects. -/
structure Inside (n : Nat) (v : Value) : Prop where
  exact : v.exact = true
  shallow : v.depth + n ≤ depthLimit

variable {n : Nat}

theorem inside_string (hn : n ≤ depthLimit) (s : Text) : Inside n (string s) :=
  ⟨rfl,by simpa [depth] using hn⟩

theorem inside_list {vs : List Value} (h : ∀ v ∈ vs, Inside (n+1) v) (hn : n+1 ≤ depthLimit) :
    Inside n (list vs) := by
  refine ⟨itemsExact_iff.mpr fun v hv => (h v hv).exact,?_⟩
  have hd : itemsDepth vs ≤ depthLimit-(n+1) := itemsDepth_le_iff.mpr fun v hv => by
    have hh := (h v hv).shallow
    omega
  rw [depth]
  omega

theorem inside_object {fs : List (Text × Value)} (hk : (KeyedList.keys fs).Nodup)
    (h : ∀ f ∈ fs, Inside (n+1) f.2) (hn : n+1 ≤ depthLimit) : Inside n (object fs) := by
  refine ⟨?_,?_⟩
  · rw [exact,Bool.and_eq_true]
    exact ⟨decide_eq_true hk,fieldsExact_iff.mpr fun f hf => (h f hf).exact⟩
  · have hd : fieldsDepth fs ≤ depthLimit-(n+1) := fieldsDepth_le_iff.mpr fun f hf => by
      have hh := (h f hf).shallow
      omega
    rw [depth]
    omega

theorem Inside.outer {m : Nat} {v : Value} (h : Inside n v) (hm : m ≤ n) : Inside m v := by
  refine ⟨h.exact,?_⟩
  have hh := h.shallow
  omega

end Value

namespace Reading

inductive Stands : List Value → Value → Prop
  | once (v : Value) : Stands [v] v
  | listed {vs : List Value} (h : vs.length ≠ 1) : Stands vs (.list vs)

/-- The field of an object that tells a reading. -/
inductive ToldBy : Reading → Text × Value → Prop
  | parameters {es : Annotations} {fs : List (Text × Value)}
      (h : List.Forall₂ (fun e f => f.1 = e.1 ∧ Stands e.2 f.2) es fs) :
      ToldBy (.parameters es) ("parameters".toList,.object fs)
  | value (v : Value) : ToldBy (.value (some v)) ("value".toList,v)
  | absent : ToldBy (.value none) ("value".toList,.null)
  | declarations {ds : List VariableDeclaration} {vs : List Value}
      (h : List.Forall₂ (fun d v =>
        v = .object [("type".toList,.string d.type),("name".toList,.string d.name)]) ds vs) :
      ToldBy (.declarations ds) ("declarations".toList,.list vs)

/-- A reading with distinct keys and values that fit into a report, which puts up to four lists and
objects around a value: the list of entries, an entry, its parameters, the occurrences of a key. -/
inductive Reportable : Reading → Prop
  | parameters {es : Annotations} (hk : (KeyedList.keys es).Nodup)
      (h : ∀ e ∈ es, ∀ v ∈ e.2, v.Inside 4) : Reportable (.parameters es)
  | value {v : Option Value} (h : ∀ w ∈ v, w.Inside 4) : Reportable (.value v)
  | declarations (ds : List VariableDeclaration) : Reportable (.declarations ds)

theorem stands_parameterField (e : Text × List Value) :
    (parameterField e).1 = e.1 ∧ Stands e.2 (parameterField e).2 := by
  obtain ⟨k,vs⟩ := e
  match vs with
  | [] => exact ⟨rfl,.listed (by simp)⟩
  | [v] => exact ⟨rfl,.once v⟩
  | v :: w :: vs => exact ⟨rfl,.listed (by simp)⟩

theorem inside_of_stands {vs : List Value} {x : Value} {n : Nat} (hs : Stands vs x)
    (h : ∀ v ∈ vs, v.Inside (n+1)) (hn : n+1 ≤ Value.depthLimit) : x.Inside n := by
  cases hs with
  | once v => exact (h x (by simp)).outer (by omega)
  | listed => exact Value.inside_list h hn

theorem toldBy_field (r : Reading) : ToldBy r r.field := by
  cases r with
  | parameters es =>
    refine .parameters (List.forall₂_map_right_iff.mpr (List.forall₂_same.mpr ?_))
    exact fun e _ => stands_parameterField e
  | value v =>
    cases v with
    | none => exact .absent
    | some v => exact .value v
  | declarations ds =>
    exact .declarations (List.forall₂_map_right_iff.mpr (List.forall₂_same.mpr fun d _ => rfl))

theorem keys_parameterField (es : Annotations) :
    KeyedList.keys (es.map parameterField) = KeyedList.keys es := by
  rw [KeyedList.keys,KeyedList.keys,List.map_map]
  exact List.map_congr_left fun e _ => (stands_parameterField e).1

theorem Reportable.inside_field {r : Reading} (h : Reportable r) : r.field.2.Inside 2 := by
  cases h with
  | @parameters es hk h =>
    refine Value.inside_object ?_ ?_ (by decide)
    · rw [keys_parameterField]
      exact hk
    · intro f hf
      obtain ⟨e,he,rfl⟩ := List.mem_map.mp hf
      exact inside_of_stands (stands_parameterField e).2 (h e he) (by decide)
  | @value v h =>
    cases v with
    | none => exact ⟨rfl,by decide⟩
    | some v => exact (h v rfl).outer (by decide)
  | declarations ds =>
    refine Value.inside_list ?_ (by decide)
    intro x hx
    obtain ⟨d,-,rfl⟩ := List.mem_map.mp hx
    have hk : ["type".toList,"name".toList].Nodup := by decide
    refine Value.inside_object hk ?_ (by decide)
    intro f hf
    rcases List.mem_cons.mp hf with rfl | hf
    · exact Value.inside_string (by decide) d.type
    · obtain rfl := List.mem_singleton.mp hf
      exact Value.inside_string (by decide) d.name

end Reading

namespace Entry

/-- The object of an entry: the file only if there is one, the target and what was read. -/
inductive ToldBy : Entry → Value → Prop
  | inFile {file target : Text} {reading : Reading} {field : Text × Value}
      (h : reading.ToldBy field) :
      ToldBy ⟨some file,target,reading⟩
        (.object [("file".toList,.string file),("target".toList,.string target),field])
  | onInput {target : Text} {reading : Reading} {field : Text × Value} (h : reading.ToldBy field) :
      ToldBy ⟨none,target,reading⟩ (.object [("target".toList,.string target),field])

theorem toldBy_toValue (e : Entry) : ToldBy e e.toValue := by
  obtain ⟨file,target,reading⟩ := e
  cases file with
  | none => exact .onInput reading.toldBy_field
  | some file => exact .inFile reading.toldBy_field

theorem nodup_keys_toValue (r : Reading) :
    ["file".toList,"target".toList,r.field.1].Nodup := by
  have hp : ["file".toList,"target".toList,"parameters".toList].Nodup := by decide
  have hv : ["file".toList,"target".toList,"value".toList].Nodup := by decide
  have hd : ["file".toList,"target".toList,"declarations".toList].Nodup := by decide
  cases r with
  | parameters es => exact hp
  | value v => exact hv
  | declarations ds => exact hd

theorem inside_toValue {e : Entry} (h : e.reading.Reportable) : e.toValue.Inside 1 := by
  obtain ⟨file,target,reading⟩ := e
  have hn := nodup_keys_toValue reading
  have htarget : ∀ f ∈ [("target".toList,Value.string target),reading.field], f.2.Inside 2 := by
    intro f hf
    rcases List.mem_cons.mp hf with rfl | hf
    · exact Value.inside_string (by decide) target
    · obtain rfl := List.mem_singleton.mp hf
      exact h.inside_field
  cases file with
  | none =>
    show Value.Inside 1 (.object [("target".toList,.string target),reading.field])
    exact Value.inside_object (List.nodup_cons.mp hn).2 htarget (by decide)
  | some file =>
    show Value.Inside 1
      (.object [("file".toList,.string file),("target".toList,.string target),reading.field])
    refine Value.inside_object hn ?_ (by decide)
    intro f hf
    rcases List.mem_cons.mp hf with rfl | hf
    · exact Value.inside_string (by decide) file
    · exact htarget f hf

end Entry

namespace Report

/-- The JSON report of any entries denotes the list of their objects, in order. -/
theorem decode?_write_json {es : List Entry} (h : ∀ e ∈ es, e.reading.Reportable) :
    ∃ vs, Value.decode? Value.depthLimit (write .json es) = some (.list vs) ∧
      List.Forall₂ Entry.ToldBy es vs := by
  have hi : (Value.list (es.map Entry.toValue)).Inside 0 := by
    refine Value.inside_list ?_ (by decide)
    intro x hx
    obtain ⟨e,he,rfl⟩ := List.mem_map.mp hx
    exact Entry.inside_toValue (h e he)
  refine ⟨es.map Entry.toValue,?_,?_⟩
  · exact Value.decode?_of_written (Value.written_pretty 0 hi.exact) hi.shallow
      (Value.spaces_newLine 0)
  · exact List.forall₂_map_right_iff.mpr (List.forall₂_same.mpr fun e _ => e.toldBy_toValue)

theorem decode?_write_json_of_escaped :
    let es : List Entry :=
      [⟨some "src/\"é\".php".toList,"A::m".toList,.parameters [("none".toList,[]),
          ("one".toList,[.object [("\\\x00\n".toList,.int (-9223372036854775808))]]),
          ("two".toList,[.list [],.string "\t\x7f".toList])]⟩,
        ⟨none,['-'],.value none⟩,
        ⟨none,['A'],.declarations [⟨"int".toList,"count".toList⟩]⟩]
    (∀ e ∈ es, e.reading.Reportable) ∧
      ∃ vs, Value.decode? Value.depthLimit (write .json es) = some (.list vs) ∧
        List.Forall₂ Entry.ToldBy es vs := by
  intro es
  have h : ∀ e ∈ es, e.reading.Reportable := by
    simp only [es,List.forall_mem_cons,List.not_mem_nil,false_imp_iff,implies_true,and_true]
    refine ⟨.parameters (by decide) ?_,.value (by simp),.declarations _⟩
    simp only [List.forall_mem_cons,List.not_mem_nil,false_imp_iff,implies_true,and_true,true_and]
    exact ⟨⟨rfl,by decide⟩,⟨rfl,by decide⟩,⟨rfl,by decide⟩⟩
  exact ⟨h,decode?_write_json h⟩

end Report
end DocTags
