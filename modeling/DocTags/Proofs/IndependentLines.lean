import DocTags.Proofs.LineEndingReading
import DocTags.Proofs.Repeats

/-! The lines of a comment are read independently. The annotations of two texts with a line feed between
them are those of the first merged with those of the second, and text without tags behind a line feed
cannot be noticed. -/
namespace DocTags

namespace Annotations

/-- The keys of the first with the values of both, then the keys that only the second has. -/
def merge (es fs : Annotations) : Annotations :=
  es.map (fun e => (e.1,e.2 ++ (fs.lookup e.1).getD [])) ++
    fs.filter fun f => f.1 ∉ KeyedList.keys es

theorem valuesUnder_append (k : Text) (ps qs : List (Text × Value)) :
    valuesUnder k (ps ++ qs) = valuesUnder k ps ++ valuesUnder k qs := by
  simp [valuesUnder]

theorem getD_lookup_addAll (k : Text) (ps : List (Text × Value)) :
    ((addAll ps []).lookup k).getD [] = valuesUnder k ps := by
  rw [lookup_addAll]
  split
  · rename_i h
    rw [h]
    rfl
  · simp

theorem addAll_append_eq_merge (ps qs : List (Text × Value)) :
    addAll (ps ++ qs) [] = merge (addAll ps []) (addAll qs []) := by
  have hkeys : ((ps ++ qs).map Prod.fst).eraseDups = (ps.map Prod.fst).eraseDups ++
      (qs.map Prod.fst).eraseDups.filter fun k => !(ps.map Prod.fst).elem k := by
    rw [List.map_append,List.eraseDups_append,List.removeAll,Repeats.eraseDups_filter]
  have hfirst : (ps.map Prod.fst).eraseDups.map (fun k => (k,valuesUnder k (ps ++ qs))) =
      (addAll ps []).map fun e => (e.1,e.2 ++ ((addAll qs []).lookup e.1).getD []) := by
    rw [addAll_eq_map ps,List.map_map]
    refine List.map_congr_left fun k _ => ?_
    rw [Function.comp_apply,getD_lookup_addAll,valuesUnder_append]
  have hsecond : ((qs.map Prod.fst).eraseDups.filter fun k => !(ps.map Prod.fst).elem k).map
      (fun k => (k,valuesUnder k (ps ++ qs))) =
      (addAll qs []).filter fun f => f.1 ∉ KeyedList.keys (addAll ps []) := by
    rw [addAll_eq_map qs,List.filter_map,keys_addAll]
    have hp : (fun f : Text × List Value => decide (f.1 ∉ (ps.map Prod.fst).eraseDups)) ∘
        (fun k => (k,valuesUnder k qs)) = fun k => !(ps.map Prod.fst).elem k := by
      funext k
      simp
    rw [hp]
    refine List.map_congr_left fun k hk => ?_
    have hn : k ∉ ps.map Prod.fst := by simpa using (List.mem_filter.mp hk).2
    rw [valuesUnder_append,valuesUnder_eq_nil_iff.mpr hn,List.nil_append]
  rw [addAll_eq_map,hkeys,List.map_append,hfirst,hsecond,merge]

theorem ofText_append_lineFeed (p q : Text) :
    ofText (p ++ '\n' :: q) = merge (ofText p) (ofText q) := by
  rw [ofText,ofText,ofText,ofTags_eq_addAll,ofTags_eq_addAll,ofTags_eq_addAll,
    Tag.all_append_lineFeed,List.map_append,addAll_append_eq_merge]

end Annotations

namespace Tag

theorem all_append_of_notMem {d : Text} (hd : '@' ∉ d) (s : Text) : all (d ++ s) = all s := by
  rw [all,segments,afterAts_append,afterAts_of_notMem hd]
  rfl

end Tag

namespace Reader

/-- The occurrences of two texts with a line feed between them: the keys of the first in their order,
each with its values from the first text and those from the second, then the other keys of the second
in theirs. A text without at signs that is put behind a line feed changes no occurrences, no value and
no declarations of a new reader, nor any other answer but the text itself. -/
theorem lines_are_independent (p q : Text) :
    (ofText (p ++ '\n' :: q)).occurrences.1 =
        Annotations.merge (ofText p).occurrences.1 (ofText q).occurrences.1 ∧
      ∀ d, '@' ∉ d →
        let a := ofText (p ++ '\n' :: (d ++ q))
        let b := ofText (p ++ '\n' :: q)
        a.occurrences.1 = b.occurrences.1 ∧ (∀ k, (a.lookup k).1 = (b.lookup k).1) ∧
          (∀ tag, (a.declarations tag).1 = (b.declarations tag).1) ∧
          ∀ qs, Request.content ∉ qs → a.answers qs = b.answers qs := by
  refine ⟨Annotations.ofText_append_lineFeed p q,fun d hd => ?_⟩
  have ht : Tag.all (p ++ '\n' :: (d ++ q)) = Tag.all (p ++ '\n' :: q) := by
    rw [Tag.all_append_lineFeed,Tag.all_append_lineFeed,Tag.all_append_of_notMem hd]
  have h := alike_ofText ht
  exact ⟨h.parseAll.cache,fun k => (h.lookup k).1,fun tag => (h.declarations tag).1,
    fun qs hq => h.answers hq⟩

theorem lines_are_independent_starred :
    let p := "/**\n * @var int $a \t".toList
    let q := "@auth\n * @var int $b */".toList
    let d := " and more:\n * ".toList
    let qs := [Request.lookup "var".toList,.declarations "var".toList,.parameters]
    '@' ∉ d ∧ Request.content ∉ qs ∧
      (ofText (p ++ '\n' :: (d ++ q))).occurrences.1 = (ofText (p ++ '\n' :: q)).occurrences.1 ∧
      (ofText (p ++ '\n' :: (d ++ q))).answers qs = (ofText (p ++ '\n' :: q)).answers qs := by
  intro p q d qs
  have hd : '@' ∉ d := by decide
  have hq : Request.content ∉ qs := by simp [qs]
  obtain ⟨ho,-,-,ha⟩ := (lines_are_independent p q).2 d hd
  exact ⟨hd,hq,ho,ha qs hq⟩

end Reader
end DocTags
