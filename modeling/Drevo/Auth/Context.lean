import Drevo.Auth.Privileges

/-! The security context of a session: the privileges of its user, and the checks that were decided
before under the keys of their requests. The cache answers for itself exactly where the keys tell
the requests apart. -/
namespace Drevo.Auth
open Lib Std

def cacheLimit : ℕ := 16384

/-- What is checked. -/
structure Check where
  action : Action
  database : String
  element : Element
  name : Option String

def Check.request (c : Check) (home : String) : Request :=
  { action := c.action, database := c.database, home := home, element := c.element, name := c.name }

/-- A label in the key. -/
def labelKey (l : String) : String := "\x01" ++ l

def elementKey : Element → String
  | .none => "-"
  | .node labels => "n" ++ String.join ((labels.insertionSort (· ≤ ·)).map labelKey)
  | .relationship t => "r" ++ t

def cacheKey (c : Check) : String :=
  c.action.name ++ "\x00" ++ c.database ++ "\x00" ++ elementKey c.element ++ "\x00" ++ c.name.getD ""

/-- A context that restricts; the clones of one share its cache. -/
structure SecurityContext where
  held : List (Access × Privilege)
  home : String
  cache : Map String Bool := ∅

namespace SecurityContext

def allowed (held : List (Access × Privilege)) (home : String) (c : Check) : Bool := (decide_ held (c.request home)).isAllowed

def check (s : SecurityContext) (c : Check) : Bool × SecurityContext :=
  match s.cache[cacheKey c]? with
  | some hit => (hit,s)
  | none =>
    let cache := if cacheLimit ≤ s.cache.size then ∅ else s.cache
    (allowed s.held s.home c,{ s with cache := cache.insert (cacheKey c) (allowed s.held s.home c) })

/-- The answers to one check after the other. -/
def checks (s : SecurityContext) : List Check → List Bool
  | [] => []
  | c :: cs => (s.check c).1 :: (s.check c).2.checks cs

theorem check_eq (s : SecurityContext) (c : Check) :
    s.check c = ((Memo.ask cacheLimit cacheKey (allowed s.held s.home) s.cache c).1,
      { s with cache := (Memo.ask cacheLimit cacheKey (allowed s.held s.home) s.cache c).2 }) := by
  unfold check Memo.ask
  cases s.cache[cacheKey c]? with
  | none => rfl
  | some hit => rfl

theorem checks_eq (s : SecurityContext) (cs : List Check) :
    s.checks cs = Memo.answers cacheLimit cacheKey (allowed s.held s.home) s.cache cs := by
  induction cs generalizing s with
  | nil => rfl
  | cons c cs ih => rw [checks,Memo.answers,check_eq,ih]

end SecurityContext

/-! ## What tells requests apart -/

/-- Elements with the same labels, in whatever order and however often. -/
def Element.Alike : Element → Element → Prop
  | .none,.none => True
  | .node ls,.node ls' => ∀ l, l ∈ ls ↔ l ∈ ls'
  | .relationship t,.relationship t' => t = t'
  | _,_ => False

/-- No privilege can tell the checks apart. -/
structure Check.Alike (c c' : Check) : Prop where
  action : c.action = c'.action
  database : c.database = c'.database
  element : c.element.Alike c'.element
  name : c.name = c'.name

theorem segmentCovers_alike {segment : Segment} {r r' : Request} (he : r.element.Alike r'.element) (hn : r.name = r'.name) :
    segmentCovers segment r = segmentCovers segment r' := by
  obtain ⟨a,d,h,e,n⟩ := r
  obtain ⟨a',d',h',e',n'⟩ := r'
  obtain rfl : n = n' := hn
  cases e <;> cases e' <;> simp only [Element.Alike] at he
  · rfl
  · rename_i ls ls'
    cases segment with
    | node p =>
      cases p with
      | all => rfl
      | name label =>
        simp only [segmentCovers]
        rw [Bool.eq_iff_iff]
        simp only [List.any_eq_true,decide_eq_true_eq]
        constructor
        · rintro ⟨l,hl,rfl⟩
          exact ⟨l,(he l).mp hl,rfl⟩
        · rintro ⟨l,hl,rfl⟩
          exact ⟨l,(he l).mpr hl,rfl⟩
    | _ => rfl
  · obtain rfl := he
    rfl

theorem covers_alike {access : Access} {p : Privilege} {c c' : Check} (h : c.Alike c') (home : String) :
    covers access p (c.request home) = covers access p (c'.request home) := by
  have hseg : segmentCovers p.segment (c.request home) = segmentCovers p.segment (c'.request home) :=
    segmentCovers_alike h.element h.name
  have htarget : targetCovers p.target (c.request home) = targetCovers p.target (c'.request home) := by
    have hdb : (c.request home).database = (c'.request home).database := h.database
    unfold targetCovers
    rw [hdb]
    rfl
  have hres : resourceCovers p.resource (c.request home) = resourceCovers p.resource (c'.request home) := by
    have hname : (c.request home).name = (c'.request home).name := h.name
    unfold resourceCovers
    rw [hname]
  have hact : (c.request home).action = (c'.request home).action := h.action
  simp only [covers,hact,hseg,htarget,hres]

theorem decide_alike {c c' : Check} (h : c.Alike c') (held : List (Access × Privilege)) (home : String) :
    decide_ held (c.request home) = decide_ held (c'.request home) := by
  have hfrom : ∀ granted, decideFrom granted held (c.request home) = decideFrom granted held (c'.request home) := by
    induction held with
    | nil => exact fun _ => rfl
    | cons q held ih =>
      intro granted
      simp only [decideFrom,covers_alike h home,ih]
  exact hfrom false

theorem allowed_one (p : Privilege) (home : String) (c : Check) :
    SecurityContext.allowed [(.grant,p)] home c = covers .grant p (c.request home) := by
  simp only [SecurityContext.allowed,decide_,decideFrom]
  cases covers .grant p (c.request home) <;> rfl

theorem covers_own (action : Action) (target : Option Target) (segment : Segment) (resource : Resource) (home : String) {c : Check}
    (h : c.action = action) : covers .grant ⟨action,target,segment,resource⟩ (c.request home) =
      (targetCovers target (c.request home) && segmentCovers segment (c.request home) && resourceCovers resource (c.request home)) := by
  have himp : implies action .grant resource (c.request home).action = some .byResource := if_pos h.symm
  simp only [covers,himp]
  simp

/-- Two checks of one action that no privilege tells apart are alike. -/
theorem alike_of_allowed {c c' : Check} (ha : c.action = c'.action)
    (h : ∀ held home, SecurityContext.allowed held home c = SecurityContext.allowed held home c') : c.Alike c' := by
  have hown : ∀ target segment resource home,
      (targetCovers target (c.request home) && segmentCovers segment (c.request home) && resourceCovers resource (c.request home)) =
        (targetCovers target (c'.request home) && segmentCovers segment (c'.request home) && resourceCovers resource (c'.request home)) := by
    intro target segment resource home
    have hone := h [(.grant,⟨c.action,target,segment,resource⟩)] home
    rwa [allowed_one,allowed_one,covers_own c.action target segment resource home rfl,
      covers_own c.action target segment resource home ha.symm] at hone
  have hdb : c.database = c'.database := by
    have hnamed : (decide (c.database = c.database) && true && true) = (decide (c.database = c'.database) && true && true) :=
      hown (some (.named c.database)) .graph .graph ""
    rw [decide_eq_true rfl] at hnamed
    exact of_decide_eq_true (by rw [Bool.and_true,Bool.and_true,Bool.and_true,Bool.and_true] at hnamed; exact hnamed.symm)
  have hname : c.name = c'.name := by
    have hprop : ∀ n, (c.name = some n ↔ c'.name = some n) := by
      intro n
      have hres := hown none .graph (.property n) ""
      have hdec : decide (c.name = some n) = decide (c'.name = some n) := hres
      exact decide_eq_decide.mp hdec
    exact Option.ext hprop
  have hseg : ∀ segment, segmentCovers segment (c.request "") = segmentCovers segment (c'.request "") := by
    intro segment
    simpa [targetCovers,resourceCovers] using hown none segment .graph ""
  refine ⟨ha,hdb,?_,hname⟩
  obtain ⟨a,d,e,n⟩ := c
  obtain ⟨a',d',e',n'⟩ := c'
  cases e with
  | none =>
    cases e' with
    | none => trivial
    | node ls => exact absurd (hseg (.node .all)) (by simp [segmentCovers,Check.request])
    | relationship t => exact absurd (hseg (.relationship .all)) (by simp [segmentCovers,Check.request,Pattern.matches_])
  | node ls =>
    cases e' with
    | none => exact absurd (hseg (.node .all)) (by simp [segmentCovers,Check.request])
    | node ls' =>
      intro l
      have hl := hseg (.node (.name l))
      simp only [segmentCovers,Check.request] at hl
      rw [Bool.eq_iff_iff] at hl
      simpa using hl
    | relationship t => exact absurd (hseg (.node .all)) (by simp [segmentCovers,Check.request])
  | relationship t =>
    cases e' with
    | none => exact absurd (hseg (.relationship .all)) (by simp [segmentCovers,Check.request,Pattern.matches_])
    | node ls => exact absurd (hseg (.node .all)) (by simp [segmentCovers,Check.request])
    | relationship t' =>
      have ht := hseg (.relationship (.name t))
      have heq : t = t' := by simpa [segmentCovers,Check.request,Pattern.matches_] using ht
      exact heq

/-! ## The keys -/

theorem split_first {α : Type} {x : α} {as as' bs bs' : List α} (ha : x ∉ as) (ha' : x ∉ as')
    (h : as ++ x :: bs = as' ++ x :: bs') : as = as' ∧ bs = bs' := by
  induction as generalizing as' with
  | nil =>
    cases as' with
    | nil => exact ⟨rfl,(List.cons.inj h).2⟩
    | cons a' as' =>
      obtain ⟨rfl,-⟩ := List.cons.inj h
      simp at ha'
  | cons a as ih =>
    cases as' with
    | nil =>
      obtain ⟨rfl,-⟩ := List.cons.inj h
      simp at ha
    | cons a' as' =>
      obtain ⟨rfl,hrest⟩ := List.cons.inj h
      obtain ⟨rfl,rfl⟩ := ih (by simp_all) (by simp_all) hrest
      exact ⟨rfl,rfl⟩

def sep : Char := '\x00'

theorem key_toList (c : Check) : (cacheKey c).toList = c.action.name.toList ++ sep :: (c.database.toList ++
    sep :: ((elementKey c.element).toList ++ sep :: (c.name.getD "").toList)) := by
  simp [cacheKey,sep]

theorem action_of_key {c c' : Check} (h : cacheKey c = cacheKey c') : c.action = c'.action := by
  have hplain : ∀ a : Action, sep ∉ a.name.toList := Action.name_plain
  have hkeys := congrArg String.toList h
  rw [key_toList,key_toList] at hkeys
  exact Action.name_inj (String.toList_inj.mp (split_first (hplain _) (hplain _) hkeys).1)

def mark : Char := '\x01'

theorem marked_inj {ws ws' : List (List Char)} (h : ∀ w ∈ ws, mark ∉ w) (h' : ∀ w ∈ ws', mark ∉ w)
    (he : ws.flatMap (fun w => mark :: w) = ws'.flatMap (fun w => mark :: w)) : ws = ws' := by
  have hread : ∀ (w : List Char) (vs : List (List Char)), mark ∉ w →
      (w ++ vs.flatMap (fun v => mark :: v)).takeWhile (fun c => c ≠ mark) = w := by
    intro w vs hw
    rw [List.takeWhile_append_of_pos]
    · cases vs <;> simp
    · intro c hc
      have hne : c ≠ mark := by
        rintro rfl
        exact hw hc
      simpa using hne
  induction ws generalizing ws' with
  | nil =>
    cases ws' with
    | nil => rfl
    | cons w' ws' => simp at he
  | cons w ws ih =>
    cases ws' with
    | nil => simp at he
    | cons w' ws' =>
      rw [List.flatMap_cons,List.flatMap_cons,List.cons_append,List.cons_append] at he
      have htail := (List.cons.inj he).2
      have hw : w = w' := by
        rw [← hread w ws (h w (by simp)),← hread w' ws' (h' w' (by simp)),htail]
      subst hw
      rw [ih (fun v hv => h v (by simp [hv])) (fun v hv => h' v (by simp [hv])) (List.append_cancel_left htail)]

theorem elementKey_node (ls : List String) : (elementKey (.node ls)).toList =
    'n' :: ((ls.insertionSort (· ≤ ·)).map String.toList).flatMap (fun w => mark :: w) := by
  have hjoin : ∀ ws : List String, (String.join (ws.map labelKey)).toList = (ws.map String.toList).flatMap (fun w => mark :: w) := by
    intro ws
    induction ws with
    | nil => rfl
    | cons w ws ih =>
      rw [List.map_cons,List.map_cons,List.flatMap_cons,← ih]
      simp [labelKey,mark]
  simp [elementKey,hjoin]

/-- Names as the key expects them: without the characters that it sets between them, and not empty
where one is given. -/
structure Check.Plain (c : Check) : Prop where
  database : sep ∉ c.database.toList
  labels : ∀ ls, c.element = .node ls → ∀ l ∈ ls, sep ∉ l.toList ∧ mark ∉ l.toList
  type : ∀ t, c.element = .relationship t → sep ∉ t.toList
  name : c.name ≠ some ""

theorem Check.Plain.element {c : Check} (h : c.Plain) : sep ∉ (elementKey c.element).toList := by
  cases he : c.element with
  | none => decide
  | node ls =>
    rw [elementKey_node]
    simp only [List.mem_cons,List.mem_flatMap,List.mem_map,List.mem_insertionSort,not_or,not_exists,not_and]
    refine ⟨by decide,?_⟩
    rintro w ⟨l,hl,rfl⟩
    exact ⟨by decide,(h.labels ls he l hl).1⟩
  | relationship t =>
    have ht := h.type t he
    simp only [elementKey,String.toList_append,List.mem_append,not_or]
    exact ⟨by decide,ht⟩

theorem Check.Plain.alike {c c' : Check} (h : c.Plain) (h' : c'.Plain) (hk : cacheKey c = cacheKey c') : c.Alike c' := by
  have haction := action_of_key hk
  have hkeys := congrArg String.toList hk
  rw [key_toList,key_toList,haction] at hkeys
  have hrest := (List.cons.inj (List.append_cancel_left hkeys)).2
  obtain ⟨hdb,hrest⟩ := split_first h.database h'.database hrest
  obtain ⟨helem,hname⟩ := split_first h.element h'.element hrest
  refine ⟨haction,String.toList_inj.mp hdb,?_,?_⟩
  · cases he : c.element with
    | none =>
      cases he' : c'.element with
      | none => trivial
      | node ls' =>
        rw [he,he',elementKey_node] at helem
        cases helem
      | relationship t' =>
        rw [he,he'] at helem
        simp [elementKey] at helem
    | node ls =>
      cases he' : c'.element with
      | none =>
        rw [he,he',elementKey_node] at helem
        cases helem
      | node ls' =>
        rw [he,he',elementKey_node,elementKey_node] at helem
        have hplain : ∀ {d : Check} {vs : List String}, d.Plain → d.element = .node vs →
            ∀ w ∈ (vs.insertionSort (· ≤ ·)).map String.toList, mark ∉ w := by
          intro d vs hd hvs w hw
          obtain ⟨l,hl,rfl⟩ := List.mem_map.mp hw
          exact (hd.labels vs hvs l ((List.mem_insertionSort _).mp hl)).2
        have hwords := marked_inj (hplain h he) (hplain h' he') (List.cons.inj helem).2
        have hsorted := List.map_injective_iff.mpr (fun _ _ hs => String.toList_inj.mp hs) hwords
        intro l
        rw [← List.mem_insertionSort (· ≤ ·),hsorted,List.mem_insertionSort]
      | relationship t' =>
        rw [he,he',elementKey_node] at helem
        simp [elementKey] at helem
    | relationship t =>
      cases he' : c'.element with
      | none =>
        rw [he,he'] at helem
        simp [elementKey] at helem
      | node ls' =>
        rw [he,he',elementKey_node] at helem
        simp [elementKey] at helem
      | relationship t' =>
        rw [he,he'] at helem
        have heq : t.toList = t'.toList := by simpa [elementKey] using helem
        exact String.toList_inj.mp heq
  · have hn := String.toList_inj.mp hname
    have hne := h.name
    have hne' := h'.name
    cases hc : c.name with
    | none =>
      cases hc' : c'.name with
      | none => rfl
      | some n' =>
        rw [hc,hc'] at hn
        rw [hc'] at hne'
        exact absurd (congrArg some hn.symm) hne'
    | some n =>
      cases hc' : c'.name with
      | none =>
        rw [hc,hc'] at hn
        rw [hc] at hne
        exact absurd (congrArg some hn) hne
      | some n' =>
        rw [hc,hc'] at hn
        exact congrArg some hn

section Samples

end Samples
end Drevo.Auth
