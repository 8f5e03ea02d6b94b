import Drevo.Index.Levenshtein
import Drevo.Index.Search

/-! Fuzzy search: one edit of a string touches three of its windows at most, so a string within a number of
edits of the query has all but three for each of them of the query's windows. -/
namespace Drevo
open Lib

/-! ## The lookup -/

namespace TrigramStore

/-- One more shared window for a node. -/
def bump (shared : Map ℕ ℕ) (id : ℕ) : Map ℕ ℕ := shared.insert id (shared[id]?.getD 0+1)

/-- How many of the windows each node has. -/
def sharedWith (s : TrigramStore) (wanted : List String) : Map ℕ ℕ :=
  wanted.foldl (fun shared t => ((s.postings.ids t).sort (· ≤ ·)).foldl bump shared) ∅

def fuzzy (s : TrigramStore) (query : String) (maxEdits : ℕ) : List ℕ :=
  let wanted := paddedTrigrams query
  let needed := wanted.length-maxEdits*3
  if needed = 0 then s.docs.keys
  else ((s.sharedWith wanted).toList.filter (fun p => needed ≤ p.2)).map Prod.fst

end TrigramStore

/-- The nodes of the index declared with exactly this label and path whose string may be within the edits. -/
def NativeTextIndex.fuzzyCandidates (x : NativeTextIndex) (label : Option String) (path : List String) (query : String)
    (maxEdits : ℕ) : Option (List ℕ) :=
  ((x.specs.zip x.stores).find? (fun p => p.1.label = label && p.1.path = path)).map (fun p => p.2.fuzzy query maxEdits)

/-! ## Windows that an edit destroys -/

/-- All but so many of the members of a list are in another. -/
def AllBut (n : ℕ) (l m : List String) : Prop := ∃ lost : List String, lost.length ≤ n ∧ ∀ t ∈ l, t ∈ m ∨ t ∈ lost

theorem AllBut.of_mem {l m : List String} (h : ∀ t ∈ l, t ∈ m) (n : ℕ) : AllBut n l m :=
  ⟨[],Nat.zero_le n,fun t ht => .inl (h t ht)⟩

theorem AllBut.trans {n k : ℕ} {l m o : List String} (h : AllBut n l m) (h' : AllBut k m o) : AllBut (n+k) l o := by
  obtain ⟨lost,hlen,h⟩ := h
  obtain ⟨lost',hlen',h'⟩ := h'
  refine ⟨lost ++ lost',by rw [List.length_append]; omega,?_⟩
  intro t ht
  obtain ht | ht := h t ht
  · obtain ht | ht := h' t ht
    · exact .inl ht
    · exact .inr (List.mem_append_right _ ht)
  · exact .inr (List.mem_append_left _ ht)

theorem AllBut.into {n : ℕ} {l m o : List String} (h : AllBut n l m) (hm : ∀ t ∈ m, t ∈ o) : AllBut n l o :=
  h.trans (AllBut.of_mem hm 0)

theorem AllBut.append_left {n : ℕ} {l m : List String} (h : AllBut n l m) (o : List String) : AllBut n (o ++ l) (o ++ m) := by
  obtain ⟨lost,hlen,h⟩ := h
  refine ⟨lost,hlen,?_⟩
  intro t ht
  obtain ht | ht := List.mem_append.mp ht
  · exact .inl (List.mem_append_left _ ht)
  · exact (h t ht).imp_left (List.mem_append_right _)

theorem windows3_grow (a : Char) (l : List Char) : AllBut 1 (windows3 (a :: l)) (windows3 l) := by
  match l with
  | [] => exact .of_mem (by simp [windows3]) 1
  | [_] => exact .of_mem (by simp [windows3]) 1
  | b :: c :: l =>
    refine ⟨[String.ofList [a,b,c]],le_rfl,?_⟩
    intro t ht
    rw [windows3] at ht
    obtain rfl | ht := List.mem_cons.mp ht
    · exact .inr (by simp)
    · exact .inl ht

theorem windows3_seam (l m : List Char) : AllBut 2 (windows3 (l ++ m)) (windows3 l ++ windows3 m) := by
  induction l with
  | nil => exact .of_mem (fun t ht => ht) 2
  | cons a l ih =>
    match l,ih with
    | [],_ => exact (windows3_grow a m).trans (AllBut.of_mem (fun t ht => ht) 1)
    | [b],_ => exact (windows3_grow a (b :: m)).trans (windows3_grow b m)
    | b :: c :: l,ih =>
      obtain ⟨lost,hlen,h⟩ := ih
      refine ⟨lost,hlen,?_⟩
      intro t ht
      rw [List.cons_append,List.cons_append,List.cons_append,windows3] at ht
      rw [windows3]
      obtain rfl | ht := List.mem_cons.mp ht
      · exact .inl (List.mem_cons_self ..)
      · exact (h t ht).imp_left (List.mem_cons_of_mem _)

theorem windows3_middle (l m : List Char) {y : List Char} (hy : y.length ≤ 1) :
    AllBut 3 (windows3 (l ++ (y ++ m))) (windows3 l ++ windows3 m) := by
  have hgrow : AllBut 1 (windows3 (y ++ m)) (windows3 m) := by
    match y,hy with
    | [],_ => exact .of_mem (fun t ht => ht) 1
    | [c],_ => exact windows3_grow c m
    | _ :: _ :: _,hy => simp only [List.length_cons] at hy; omega
  exact (windows3_seam l (y ++ m)).trans (hgrow.append_left _)

/-- A text between the markers. -/
def padded (l : List Char) : List Char := [textStart,textStart] ++ l ++ [textEnd,textEnd]

theorem edit_windows {l m : List Char} (h : Edit l m) : AllBut 3 (windows3 (padded m)) (windows3 (padded l)) := by
  obtain ⟨p,x,y,s,rfl,rfl,hy⟩ : ∃ p x y s, l = p ++ (x ++ s) ∧ m = p ++ (y ++ s) ∧ y.length ≤ 1 := by
    cases h with
    | insert p s c => exact ⟨p,[],[c],s,rfl,rfl,le_rfl⟩
    | delete p s c => exact ⟨p,[c],[],s,rfl,rfl,Nat.zero_le 1⟩
    | substitute p s c d => exact ⟨p,[c],[d],s,rfl,rfl,le_rfl⟩
  have hpad : ∀ z, padded (p ++ (z ++ s)) = ([textStart,textStart] ++ p) ++ (z ++ (s ++ [textEnd,textEnd])) := by
    intro z
    simp [padded]
  rw [hpad,hpad]
  refine (windows3_middle _ _ hy).into ?_
  intro t ht
  obtain ht | ht := List.mem_append.mp ht
  · exact windows3_append _ _ t ht
  · exact windows3_infix ⟨([textStart,textStart] ++ p) ++ x,[],by simp⟩ t ht

theorem edits_windows {n : ℕ} {l m : List Char} (h : Edits n l m) :
    AllBut (n*3) (windows3 (padded m)) (windows3 (padded l)) := by
  induction h with
  | none l => exact .of_mem (fun t ht => ht) _
  | more _ he ih =>
    rw [Nat.add_mul,Nat.add_comm]
    exact (edit_windows he).trans ih

theorem mem_paddedTrigrams (text t : String) : t ∈ paddedTrigrams text ↔ t ∈ windows3 (padded text.toList) :=
  mem_sortedDistinct _ t

/-- What two strings share of the distinct windows of the second. -/
def sharedWindows (value query : String) : ℕ := (paddedTrigrams query).countP (fun t => t ∈ paddedTrigrams value)

theorem edits_shared {n : ℕ} {value query : String} (h : Edits n value.toList query.toList) :
    (paddedTrigrams query).length ≤ sharedWindows value query+n*3 := by
  obtain ⟨lost,hlen,h⟩ := edits_windows h
  have hlost : ((paddedTrigrams query).filter (fun t => ¬ t ∈ paddedTrigrams value)).length ≤ lost.length := by
    refine List.Subperm.length_le (List.Nodup.subperm ((List.nodup_dedup _).filter _) ?_)
    intro t ht
    obtain ⟨ht,hnot⟩ := List.mem_filter.mp ht
    rw [mem_paddedTrigrams] at ht
    have hnot := of_decide_eq_true hnot
    rw [mem_paddedTrigrams] at hnot
    exact (h t ht).resolve_left hnot
  rw [← List.countP_eq_length_filter] at hlost
  have hall := List.length_eq_countP_add_countP (fun t => decide (t ∈ paddedTrigrams value)) (l := paddedTrigrams query)
  simp only [decide_eq_true_eq] at hall
  unfold sharedWindows
  omega

/-! ## What the lookup counts -/

namespace TrigramStore

theorem bumps_get (l : List ℕ) (hl : l.Nodup) (id : ℕ) : ∀ shared : Map ℕ ℕ,
    ((l.foldl bump shared)[id]?).getD 0 = shared[id]?.getD 0+if id ∈ l then 1 else 0 := by
  induction l with
  | nil =>
    intro shared
    simp
  | cons i l ih =>
    intro shared
    obtain ⟨hnot,hl⟩ := List.nodup_cons.mp hl
    rw [List.foldl_cons,ih hl,bump,Map.get_insert]
    by_cases hi : i = id
    · subst hi
      simp [hnot]
    · simp [hi,Ne.symm hi]

theorem sharedWith_get (s : TrigramStore) (wanted : List String) (id : ℕ) :
    ((s.sharedWith wanted)[id]?).getD 0 = wanted.countP (fun t => id ∈ s.postings.ids t) := by
  have hall : ∀ shared : Map ℕ ℕ,
      ((wanted.foldl (fun shared t => ((s.postings.ids t).sort (· ≤ ·)).foldl bump shared) shared)[id]?).getD 0 =
        shared[id]?.getD 0+wanted.countP (fun t => id ∈ s.postings.ids t) := by
    induction wanted with
    | nil =>
      intro shared
      simp
    | cons t wanted ih =>
      intro shared
      rw [List.foldl_cons,ih,bumps_get _ (Finset.sort_nodup ..),List.countP_cons]
      simp only [Finset.mem_sort,decide_eq_true_eq]
      omega
  rw [sharedWith,hall]
  simp

theorem Holds.mem_postings {spec : TextIndexSpec} {s : TrigramStore} {nodes : Map ℕ Node} (h : s.Holds spec nodes) {id : ℕ}
    {node : Node} (hn : nodes[id]? = some node) {trigrams : List String} (hdoc : doc spec node = some trigrams) (t : String) :
    id ∈ s.postings.ids t ↔ t ∈ trigrams := by
  have hlook := h.postings.look t id
  simp only [Filing.sets,hn,Option.bind_some,hdoc,shelf,Keyed.ofList] at hlook
  by_cases hin : t ∈ trigrams
  · rw [if_pos hin] at hlook
    by_cases hid : id ∈ s.postings.ids t
    · exact iff_of_true hid hin
    · rw [if_neg hid] at hlook
      cases hlook
  · rw [if_neg hin] at hlook
    by_cases hid : id ∈ s.postings.ids t
    · rw [if_pos hid] at hlook
      cases hlook
    · exact iff_of_false hid hin

theorem mem_fuzzy {spec : TextIndexSpec} {s : TrigramStore} {nodes : Map ℕ Node} (h : s.Holds spec nodes) {id : ℕ}
    {node : Node} (hn : nodes[id]? = some node) {value : String} (hread : read spec node = .text value) {query : String}
    {maxEdits : ℕ} (hshare : (paddedTrigrams query).length-maxEdits*3 ≤ sharedWindows value query) :
    id ∈ s.fuzzy query maxEdits := by
  have hdoc : doc spec node = some (paddedTrigrams value) := by rw [doc,hread]
  have hkept : s.docs[id]? = some (paddedTrigrams value) := by rw [h.docs,hn,Option.bind_some,hdoc]
  unfold fuzzy
  simp only
  split_ifs with hneed
  · rw [Std.ExtTreeMap.mem_keys,Std.ExtTreeMap.mem_iff_isSome_getElem?,hkept]
    rfl
  · have hcount : ((s.sharedWith (paddedTrigrams query))[id]?).getD 0 = sharedWindows value query := by
      rw [sharedWith_get,sharedWindows]
      exact List.countP_congr (fun t _ => by simp only [h.mem_postings hn hdoc])
    cases hget : (s.sharedWith (paddedTrigrams query))[id]? with
    | none =>
      rw [hget,Option.getD_none] at hcount
      omega
    | some n =>
      rw [hget,Option.getD_some] at hcount
      refine List.mem_map.mpr ⟨(id,n),List.mem_filter.mpr ⟨?_,?_⟩,rfl⟩
      · exact Std.ExtTreeMap.mem_toList_iff_getElem?_eq_some.mpr hget
      · exact decide_eq_true (by omega)

end TrigramStore

theorem fuzzyCandidates_declared {x : NativeTextIndex} {nodes : Map ℕ Node} (h : HoldsAll x.specs x.stores nodes)
    {label : Option String} {path : List String} (hspec : ⟨label,path⟩ ∈ x.specs) (query : String) (maxEdits : ℕ) :
    ∃ s : TrigramStore, s.Holds ⟨label,path⟩ nodes ∧ x.fuzzyCandidates label path query maxEdits = some (s.fuzzy query maxEdits) := by
  have hzip : ∃ s, ((⟨label,path⟩ : TextIndexSpec),s) ∈ x.specs.zip x.stores := by
    have hlen : x.specs.length = x.stores.length := List.Forall₂.length_eq h
    rw [← List.map_fst_zip hlen.le] at hspec
    obtain ⟨⟨spec,s⟩,hin,rfl⟩ := List.mem_map.mp hspec
    exact ⟨s,hin⟩
  obtain ⟨s,hin⟩ := hzip
  cases hfind : (x.specs.zip x.stores).find? (fun p => p.1.label = label && p.1.path = path) with
  | none =>
    have hnone := List.find?_eq_none.mp hfind _ hin
    simp at hnone
  | some p =>
    have hp := List.find?_some hfind
    simp only [Bool.and_eq_true,decide_eq_true_eq] at hp
    have hholds := holdsAll_get h (List.mem_of_find?_eq_some hfind)
    refine ⟨p.2,?_,?_⟩
    · rw [← hp.1,← hp.2]
      exact hholds
    · rw [NativeTextIndex.fuzzyCandidates,hfind]
      rfl

/-- Whatever an index has read, a fuzzy lookup has the node of every indexed string that so many edits turn
into the query, which shares all but three windows for each of them; the distance of two strings is the
least number of edits, and the bounded search finds it if it is within the bound. -/
theorem fuzzy_complete (specs : List TextIndexSpec) (events : List TextIndexEvent) {label : Option String} {path : List String}
    (hspec : ⟨label,path⟩ ∈ (IndexedText.run specs events).index.specs) (query : String) (maxEdits : ℕ) (a b : String) (max : ℕ) :
    (∃ ids, (IndexedText.run specs events).index.fuzzyCandidates label path query maxEdits = some ids ∧
      ∀ id node value n, (IndexedText.run specs events).nodes[id]? = some node →
        TrigramStore.read ⟨label,path⟩ node = .text value → Edits n value.toList query.toList → n ≤ maxEdits →
        id ∈ ids ∧ (paddedTrigrams query).length-maxEdits*3 ≤ sharedWindows value query) ∧
      IsLeast {n | Edits n a.toList b.toList} (Levenshtein.distance a b) ∧
      Levenshtein.distanceWithin a b max = if Levenshtein.distance a b ≤ max then some (Levenshtein.distance a b) else none := by
  refine ⟨?_,?_,?_⟩
  · obtain ⟨s,hs,hlookup⟩ := fuzzyCandidates_declared (IndexedText.run_holds specs events) hspec query maxEdits
    refine ⟨s.fuzzy query maxEdits,hlookup,?_⟩
    intro id node value n hn hread hedits hmax
    have hshared := edits_shared hedits
    have hshare : (paddedTrigrams query).length-maxEdits*3 ≤ sharedWindows value query := by omega
    exact ⟨TrigramStore.mem_fuzzy hs hn hread hshare,hshare⟩
  · rw [Levenshtein.distance_lev]
    exact lev_isLeast a.toList b.toList
  · rw [Levenshtein.distance_lev]
    exact Levenshtein.distanceWithin_lev a b max

/-- A title one substitution away from the query. -/
theorem abd_found : (∃ ids, (IndexedText.run bugTitles abcNote).index.fuzzyCandidates (some "Bug") ["title"] "abd" 1 = some ids ∧
    7 ∈ ids) ∧ Levenshtein.distance "kitten" "sitting" = 3 ∧ Levenshtein.distanceWithin "kitten" "sitting" 2 = none := by
  have hnode : (IndexedText.run bugTitles abcNote).nodes[7]? = some ⟨7,1,"Bug","abc","","",0,0,default⟩ := by
    decide +kernel
  have hread : TrigramStore.read ⟨some "Bug",["title"]⟩ ⟨7,1,"Bug","abc","","",0,0,default⟩ = .text "abc" := by
    rfl
  have hspec : (⟨some "Bug",["title"]⟩ : TextIndexSpec) ∈ (IndexedText.run bugTitles abcNote).index.specs := by decide +kernel
  obtain ⟨⟨ids,hids,hall⟩,-,hwithin⟩ := fuzzy_complete bugTitles abcNote hspec "abd" 1 "kitten" "sitting" 2
  have hdistance : Levenshtein.distance "kitten" "sitting" = 3 := by decide +kernel
  rw [hdistance] at hwithin
  refine ⟨⟨ids,hids,?_⟩,hdistance,hwithin⟩
  exact (hall 7 _ "abc" 1 hnode hread ((Edits.none _).more (.substitute ['a','b'] [] 'c' 'd')) le_rfl).1

end Drevo
