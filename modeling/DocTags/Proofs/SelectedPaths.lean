import DocTags.Proofs.FileRuns
import DocTags.Proofs.PathOrder
import DocTags.Proofs.PathPlaces

/-! What arguments that exist select: a file stands for itself, a folder for the sources in it. The paths
come in increasing order, whatever the order of the arguments. A folder that cannot be listed ends the
run. -/
namespace DocTags

namespace FileSelection

def HasSourceExtension (name : Bytes) : Prop :=
  Path.extension? name = some (Text.bytes "php".toList) ∨
    Path.extension? name = some (Text.bytes "inc".toList)

/-- The paths that existing arguments stand for. -/
inductive Selects (fs : FileSystem) (args : List Text) : Bytes → Prop
  | file {a : Text} {content : Except Text ByteArray} (given : a ∈ args)
      (found : fs.find? a.bytes = some (.file content)) : Selects fs args a.bytes
  | source {a : Text} {n : Bytes} {children : List (Bytes × FileSystem.Place)}
      {t : FileSystem.Place} {content : Except Text ByteArray} (given : a ∈ args)
      (found : fs.find? a.bytes = some (.folder none children)) (child : (n,t) ∈ children)
      (source : fs.node? t = some (.file content)) (extension : HasSourceExtension n) :
      Selects fs args (Path.join a.bytes n)

theorem isSource_iff {fs : FileSystem} {path n : Bytes} : isSource fs path n = true ↔
    (∃ content, fs.find? path = some (.file content)) ∧ HasSourceExtension n := by
  have hx : (Path.extension? n).any (sourceExtensions.contains ·) = true ↔ HasSourceExtension n := by
    unfold HasSourceExtension
    cases Path.extension? n <;> simp [sourceExtensions]
  have hf : (fs.find? path).any (·.isFile) = true ↔
      ∃ content, fs.find? path = some (.file content) := by
    match fs.find? path with
    | none => simp
    | some (.file content) => simp [FileSystem.Node.isFile]
    | some (.folder refusal children) => simp [FileSystem.Node.isFile]
  rw [isSource,Bool.and_eq_true_iff,hx,hf]

theorem mem_sourcesIn {fs : FileSystem} {d p : Bytes} {refusal : Option Text}
    {children : List (Bytes × FileSystem.Place)} (hd : fs.find? d = some (.folder refusal children)) :
    p ∈ sourcesIn fs d (KeyedList.keys children) ↔ ∃ n t content, (n,t) ∈ children ∧
      fs.node? t = some (.file content) ∧ HasSourceExtension n ∧ p = Path.join d n := by
  constructor
  · intro h
    obtain ⟨n,hm,rfl⟩ := List.mem_map.mp h
    obtain ⟨hk,hs⟩ := List.mem_filter.mp hm
    obtain ⟨⟨n,t⟩,hc,rfl⟩ := List.mem_map.mp hk
    obtain ⟨⟨content,hf⟩,hx⟩ := isSource_iff.mp hs
    exact ⟨n,t,content,hc,(FileSystem.find?_join hd hc).symm.trans hf,hx,rfl⟩
  · rintro ⟨n,t,content,hc,hf,hx,rfl⟩
    refine List.mem_map.mpr ⟨n,List.mem_filter.mpr ⟨List.mem_map_of_mem hc,?_⟩,rfl⟩
    exact isSource_iff.mpr ⟨⟨content,(FileSystem.find?_join hd hc).trans hf⟩,hx⟩

/-- The failure at an argument that is a folder whose names cannot be listed. -/
def refusal? (fs : FileSystem) (a : Text) : Option Failure :=
  match fs.find? a.bytes with
  | some (.folder (some reason) _) => some (.unlistable a reason)
  | _ => none

def pathsOf (fs : FileSystem) (a : Text) : List Bytes :=
  match fs.find? a.bytes with
  | some (.file _) => [a.bytes]
  | some (.folder none children) => sourcesIn fs a.bytes (KeyedList.keys children)
  | _ => []

def selected (fs : FileSystem) (args : List Text) : List Bytes :=
  Path.arrange (args.flatMap (pathsOf fs))

section

variable {fs : FileSystem} {args : List Text}

theorem mem_flatMap_pathsOf {p : Bytes} : p ∈ args.flatMap (pathsOf fs) ↔ Selects fs args p := by
  rw [List.mem_flatMap]
  constructor
  · rintro ⟨a,ha,hp⟩
    unfold pathsOf at hp
    split at hp
    case h_1 content hf =>
      obtain rfl := List.mem_singleton.mp hp
      exact .file ha hf
    case h_2 children hf =>
      obtain ⟨n,t,content,hc,hs,hx,rfl⟩ := (mem_sourcesIn hf).mp hp
      exact .source ha hf hc hs hx
    case h_3 => cases hp
  · rintro (⟨ha,hf⟩ | ⟨ha,hf,hc,hs,hx⟩)
    · exact ⟨_,ha,by simp [pathsOf,hf]⟩
    · refine ⟨_,ha,?_⟩
      simp only [pathsOf,hf]
      exact (mem_sourcesIn hf).mpr ⟨_,_,_,hc,hs,hx,rfl⟩

theorem result_select {a : Text} (h : (fs.find? a.bytes).isSome) (hr : refusal? fs a = none) :
    (select fs a).result = .ok (pathsOf fs a) := by
  obtain ⟨t,ht⟩ := Option.isSome_iff_exists.mp h
  unfold refusal? at hr
  unfold select pathsOf
  rw [ht] at hr ⊢
  match t with
  | .file content => rfl
  | .folder none children => rfl
  | .folder (some reason) children => cases hr

theorem result_select_of_refused {a : Text} {f : Failure} (h : refusal? fs a = some f) :
    (select fs a).result = .error f := by
  unfold refusal? at h
  split at h
  case h_1 reason children hf =>
    obtain rfl := Option.some.inj h
    simp only [select,hf]
    rfl
  case h_2 => cases h

variable (he : ∀ a ∈ args, (fs.find? a.bytes).isSome)
include he

theorem result_selectAll (hr : args.findSome? (refusal? fs) = none) :
    (selectAll fs args).result = .ok (selected fs args) := by
  have hs : (args.mapM fun a => (select fs a).result) = .ok (args.map (pathsOf fs)) := by
    rw [Outcome.mapM_eq_ok_iff,List.forall₂_map_right_iff,List.forall₂_same]
    exact fun a ha => result_select (he a ha) (List.findSome?_eq_none_iff.mp hr a ha)
  rw [selectAll,Outcome.result_bind,Outcome.result_collect,hs]
  rfl

theorem result_selectAll_of_refused {f : Failure} (hr : args.findSome? (refusal? fs) = some f) :
    (selectAll fs args).result = .error f := by
  obtain ⟨before,a,after,rfl,ha,hb⟩ := List.findSome?_eq_some_iff.mp hr
  have hs : ((before ++ a :: after).mapM fun a => (select fs a).result) = .error f := by
    refine Outcome.mapM_eq_error_iff.mpr ⟨before,a,after,rfl,fun b hm => ?_,?_⟩
    · exact ⟨_,result_select (he b (by simp [hm])) (hb b hm)⟩
    · exact result_select_of_refused ha
  rw [selectAll,Outcome.result_bind,Outcome.result_collect,hs]
  rfl

omit he

/-- Each place is selected by one path at most. -/
def SpelledOnce (fs : FileSystem) (args : List Text) : Prop :=
  ∀ p q, Selects fs args p → Selects fs args q → Path.components p = Path.components q → p = q

theorem spelledOnce_iff : SpelledOnce fs args ↔
    ∀ p ∈ args.flatMap (pathsOf fs), ∀ q ∈ args.flatMap (pathsOf fs),
      Path.components p = Path.components q → p = q := by
  simp only [mem_flatMap_pathsOf]
  exact ⟨fun h p hp q hq => h p q hp hq,fun h p q hp hq => h p hp q hq⟩

instance : Decidable (SpelledOnce fs args) := decidable_of_iff _ spelledOnce_iff.symm

theorem pairwise_selected : (selected fs args).Pairwise Path.Before := Path.pairwise_arrange _

theorem mem_selected (hs : SpelledOnce fs args) {p : Bytes} :
    p ∈ selected fs args ↔ Selects fs args p := by
  rw [selected,Path.mem_arrange (spelledOnce_iff.mp hs),mem_flatMap_pathsOf]

theorem Selects.exists_file {p : Bytes} (h : Selects fs args p) :
    ∃ content, fs.find? p = some (.file content) := by
  cases h with
  | file given found => exact ⟨_,found⟩
  | @source a n children t content given found child source extension =>
    exact ⟨content,(FileSystem.find?_join found child).trans source⟩

end

end FileSelection
end DocTags
