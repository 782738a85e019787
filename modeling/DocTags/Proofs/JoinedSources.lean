import DocTags.Proofs.IndexedNames
import DocTags.Proofs.JoinedComments
import DocTags.Proofs.Repeats

/-! The index of two sources one after the other. The first one ends with a line that closes the open
class and stands between its comments and the declarations of the second; so both declare what they
declare alone, and each declaration has the comment that it has alone. -/
namespace DocTags

namespace LineScan

theorem openBehind_brace (o : Option Text) (ls : List (Nat × Text)) (i : Nat) :
    openBehind o (ls ++ [(i,['\x7d'])]) = none := by
  rw [openBehind,List.foldl_append]
  rfl

end LineScan

namespace SourceIndex

open SourcePattern LineScan

/-- A source that another one can follow: it is empty, or its last line is a closing brace alone with a
line feed behind it; and no comment in it is left open. -/
structure Ended (s : Text) : Prop where
  braced : s = [] ∨ ∃ v, EndsLines v ∧ s = v ++ ['\x7d','\n']
  closed : Closed s

theorem openBehind_placed {v : Text} (h : EndsLines v) (o : Option Text) :
    openBehind o (Text.placed 0 (v ++ ['\x7d']).lines) = none := by
  rcases h.eq_nil_or with rfl | ⟨w,rfl⟩
  · exact openBehind_brace o [] 0
  · rw [List.append_assoc,List.singleton_append,Text.placed_lines_append]
    exact openBehind_brace o _ _

@[simp] theorem declarationsOf_nil : declarationsOf [] = [] := rfl

theorem declarationsOf_append {s : Text} (hs : Ended s) (t : Text) :
    declarationsOf (s ++ t) =
      declarationsOf s ++ (declarationsOf t).map fun d => (s.length+d.1,d.2) := by
  rcases hs.braced with rfl | ⟨v,hv,rfl⟩
  · simp
  · have hl : (0+(v ++ ['\x7d']).length+1) = (v ++ ['\x7d','\n']).length+0 := by simp
    have happ (u : Text) : declarationsOf (v ++ ['\x7d','\n'] ++ u) =
        declarations none (Text.placed 0 (v ++ ['\x7d']).lines) ++
          (declarationsOf u).map fun d => ((v ++ ['\x7d','\n']).length+d.1,d.2) := by
      have hu : v ++ ['\x7d','\n'] ++ u = (v ++ ['\x7d']) ++ '\n' :: u := by simp
      rw [declarationsOf,hu,Text.placed_lines_append,declarations_append,openBehind_placed hv,hl,
        Text.placed_add,declarations_map,declarationsOf]
    have hfirst := happ []
    rw [List.append_nil,declarationsOf_nil,List.map_nil,List.append_nil] at hfirst
    rw [happ,hfirst]

theorem Ended.endsLines {s : Text} (hs : Ended s) : EndsLines s := by
  intro c hc
  rcases hs.braced with rfl | ⟨v,-,rfl⟩
  · cases hc
  · simpa [eq_comm] using hc

/-- What stands behind a slash goes over the start of the line with the brace. -/
theorem exists_brace_behind_slash {p t v : Text} (hv : EndsLines v)
    (h : p ++ '/' :: t = v ++ ['\x7d','\n']) : ∃ z, t = z ++ ['\n','\x7d','\n'] := by
  rcases EndsLines.eq_nil_or hv with rfl | ⟨w,rfl⟩
  · have hm : '/' ∈ ['\x7d','\n'] := by
      rw [← List.nil_append ['\x7d','\n'],← h]
      simp
    exact absurd hm (by decide)
  · rw [List.append_assoc,List.singleton_append] at h
    rcases List.append_eq_append_iff.mp h with ⟨z,-,hz⟩ | ⟨z,-,hz⟩
    · cases z with
      | nil => cases hz
      | cons c z => exact ⟨z,(List.cons.inj hz).2⟩
    · have hm : '/' ∈ ['\n','\x7d','\n'] := by
        rw [hz]
        simp
      exact absurd hm (by decide)

theorem exists_brace_behind {s : Text} (hs : Ended s) {m : Match Text} (hm : m ∈ docSpans 0 s) :
    ∃ z, s.drop m.stop = z ++ ['\n','\x7d','\n'] := by
  obtain ⟨a,t,hst,-,hstop⟩ := slice_of_mem_docSpans hm
  have hdrop : s.drop m.stop = t := by
    rw [hstop]
    exact (congrArg (List.drop _) hst).trans List.drop_left
  have hslash : s = (a ++ (docOpen ++ (m.found ++ ['*']))) ++ '/' :: t := by
    rw [hst]
    simp [docClose]
  rw [hdrop]
  rcases hs.braced with rfl | ⟨v,hv,hsv⟩
  · simp at hslash
  · exact exists_brace_behind_slash hv (hslash.symm.trans hsv)

theorem all_isLooseLine_behind {s : Text} (hs : Ended s) {m : Match Text} (hm : m ∈ docSpans 0 s)
    (u : Text) : (Text.lines (s.drop m.stop ++ u)).all isLooseLine = false := by
  obtain ⟨z,hz⟩ := exists_brace_behind hs hm
  have hu : s.drop m.stop ++ u = z ++ '\n' :: (['\x7d'] ++ '\n' :: u) := by
    rw [hz]
    simp
  have hb : isLooseLine ['\x7d'] = false := by decide
  rw [hu,Text.lines_append,Text.lines_append,List.all_append,List.all_append]
  simp [Text.lines,hb]

section

variable {s : Text} (hs : Ended s) (t : Text)
include hs

theorem docSpans_append_of_ended :
    docSpans 0 (s ++ t) = docSpans 0 s ++ (docSpans 0 t).map (Match.shift s.length) := by
  rw [docSpans_append hs.closed hs.endsLines,Nat.zero_add,docSpans_length s.length]

theorem docAbove_append_left {i : Nat} (hi : i ≤ s.length) : docAbove (s ++ t) i = docAbove s i := by
  have hlater : ((docSpans 0 t).map (Match.shift s.length)).reverse.find? (fun m => m.stop ≤ i) =
      none := by
    refine List.find?_eq_none.mpr fun m hm => ?_
    obtain ⟨m',hm',rfl⟩ := List.mem_map.mp (List.mem_reverse.mp hm)
    have hp := pos_of_mem_docSpans hm'
    have hl : ¬ s.length+m'.stop ≤ i := by omega
    exact fun h => hl (of_decide_eq_true h)
  have htake : (s ++ t).take i = s.take i := List.take_append_of_le_length hi
  rw [docAbove_eq_stored,docAbove_eq_stored,docSpans_append_of_ended hs,List.reverse_append,
    List.find?_append,hlater,Option.none_or,htake]

theorem docAbove_append_right (j : Nat) : docAbove (s ++ t) (s.length+j) = docAbove t j := by
  have hshift : ((fun m => decide (m.stop ≤ s.length+j)) ∘ Match.shift s.length : Match Text → Bool) =
      fun m => decide (m.stop ≤ j) := by
    funext m
    simp [Match.shift]
  have htake : (s ++ t).take (s.length+j) = s ++ t.take j := List.take_length_add_append j
  rw [docAbove_eq_stored,docAbove_eq_stored,docSpans_append_of_ended hs,List.reverse_append,
    List.find?_append,← List.map_reverse,List.find?_map,hshift,htake]
  cases (docSpans 0 t).reverse.find? fun m => m.stop ≤ j with
  | some m =>
    have hdrop : (s ++ t.take j).drop (s.length+m.stop) = (t.take j).drop m.stop :=
      List.drop_length_add_append m.stop
    simp only [Option.map_some,Option.some_or,Match.shift,hdrop]
  | none =>
    rw [Option.map_none,Option.none_or]
    cases hf : (docSpans 0 s).reverse.find? fun m => m.stop ≤ s.length+j with
    | none => rfl
    | some m =>
      have hm : m ∈ docSpans 0 s := List.mem_reverse.mp (List.mem_of_find?_eq_some hf)
      have hdrop : (s ++ t.take j).drop m.stop = s.drop m.stop ++ t.take j :=
        List.drop_append_of_le_length (le_length_of_mem_docSpans hm)
      simp only [hdrop,all_isLooseLine_behind hs hm,Bool.false_eq_true,if_false]

/-- The index of the two sources: the comments of the second are set behind those of the first. -/
theorem entries_append :
    (ofText (s ++ t)).entries = ((declarationsOf t).map fun d => (d.2,docAbove t d.1)).foldl
      (fun es p => KeyedList.put p.1 p.2 es) (ofText s).entries := by
  have hleft : (declarationsOf s).map (fun d => (d.2,docAbove (s ++ t) d.1)) =
      (declarationsOf s).map fun d => (d.2,docAbove s d.1) := by
    refine List.map_congr_left fun d hd => ?_
    rw [docAbove_append_left hs t (le_length_of_mem_declarationsOf hd)]
  have hright : (declarationsOf t).map
      ((fun d => (d.2,docAbove (s ++ t) d.1)) ∘ fun d : Nat × Reference => (s.length+d.1,d.2)) =
      (declarationsOf t).map fun d => (d.2,docAbove t d.1) := by
    refine List.map_congr_left fun d _ => ?_
    rw [Function.comp_apply,docAbove_append_right hs]
  rw [entries_ofText,entries_ofText,declarationsOf_append hs,List.map_append,List.map_map,hleft,
    hright,KeyedList.ofPairs,List.foldl_append,KeyedList.ofPairs]

theorem references_append : (ofText (s ++ t)).references =
    (ofText s).references ++ (ofText t).references.filter (· ∉ (ofText s).references) := by
  have hmap : (declarationsOf (s ++ t)).map Prod.snd =
      (declarationsOf s).map Prod.snd ++ (declarationsOf t).map Prod.snd := by
    rw [declarationsOf_append hs,List.map_append,List.map_map]
    rfl
  rw [references_ofText,references_ofText,references_ofText,hmap,List.eraseDups_append,
    List.removeAll,Repeats.eraseDups_filter]
  congr 1
  refine List.filter_congr fun r _ => ?_
  simp

theorem comment_append (r : Reference) : (ofText (s ++ t)).comment r =
    if r ∈ (ofText t).references then (ofText t).comment r else (ofText s).comment r := by
  have hk : r ∈ (ofText t).references ↔
      r ∈ KeyedList.keys ((declarationsOf t).map fun d => (d.2,docAbove t d.1)) := by
    rw [references_ofText,List.mem_eraseDups,KeyedList.keys,List.map_map]
    rfl
  rw [comment,entries_append hs]
  by_cases h : r ∈ (ofText t).references
  · rw [if_pos h,KeyedList.lookup_foldl_put_of_mem (hk.mp h) _ [],comment,entries_ofText t]
    rfl
  · rw [if_neg h,KeyedList.lookup_foldl_put_of_notMem fun hr => h (hk.mpr hr),comment]

/-- The references of two sources are those of the first and then those of the second that the first
lacks. A reference that the second declares has its comment from there, any other from the first. -/
theorem ofText_append_of_ended :
    (ofText (s ++ t)).references =
        (ofText s).references ++ (ofText t).references.filter (· ∉ (ofText s).references) ∧
      ∀ r, (ofText (s ++ t)).comment r =
        if r ∈ (ofText t).references then (ofText t).comment r else (ofText s).comment r :=
  ⟨references_append hs t,comment_append hs t⟩

end

def firstSource : Text := "class A\n\x7b\n\x7d\n/** @a */\nclass B\n\x7b\n\x7d\n".toList

def secondSource : Text := "function f() \x7b\x7d\n/** @b */\nclass A\n\x7b\nfunction g() \x7b\x7d".toList

theorem ended_firstSource : Ended firstSource where
  braced := by
    refine Or.inr ⟨"class A\n\x7b\n\x7d\n/** @a */\nclass B\n\x7b\n".toList,fun c hc => ?_,rfl⟩
    exact (Option.some.inj hc).symm
  closed := by
    have h : cutComment? firstSource =
        some ("class A\n\x7b\n\x7d\n".toList," @a ".toList,"\nclass B\n\x7b\n\x7d\n".toList) := rfl
    exact (closed_iff_of_some h).mpr ((closed_iff_of_none rfl).mpr (Text.notInfix_iff_cut?.mpr rfl))

theorem ofText_firstSource_append_secondSource :
    Ended firstSource ∧
      (ofText (firstSource ++ secondSource)).references =
        [⟨['A'],none⟩,⟨['B'],none⟩,⟨['A'],some ['g']⟩] ∧
      (ofText (firstSource ++ secondSource)).comment ⟨['A'],none⟩ = "/** @b".toList ∧
      (ofText (firstSource ++ secondSource)).comment ⟨['B'],none⟩ = "/** @a".toList := by
  obtain ⟨hr,hc⟩ := ofText_append_of_ended ended_firstSource secondSource
  have hfirst : (ofText firstSource).references = [⟨['A'],none⟩,⟨['B'],none⟩] := by
    rw [ofText_eq_index]
    rfl
  have hsecond : (ofText secondSource).references = [⟨['A'],none⟩,⟨['A'],some ['g']⟩] := by
    rw [ofText_eq_index]
    rfl
  have hA : ⟨['A'],none⟩ ∈ (ofText secondSource).references := by
    rw [hsecond]
    decide
  have hB : ⟨['B'],none⟩ ∉ (ofText secondSource).references := by
    rw [hsecond]
    decide
  refine ⟨ended_firstSource,?_,?_,?_⟩
  · rw [hr,hfirst,hsecond]
    decide
  · rw [hc,if_pos hA,ofText_eq_index]
    rfl
  · rw [hc,if_neg hB,ofText_eq_index]
    rfl

end SourceIndex
end DocTags
