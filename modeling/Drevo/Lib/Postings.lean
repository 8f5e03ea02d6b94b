import Drevo.Lib.Index

/-! Structures derived from a map of records: posting lists that are kept when a record is stored
and undone when it is dropped. Whatever the order of the changes, what is derived depends on the
records alone. -/
set_option linter.unusedSectionVars false

namespace Lib
open Std

/-! ## Filing records under keys -/

/-- A way to file identifiers under keys, each with a value, and to take them out again. -/
structure Filing (P K ι W : Type*) [DecidableEq K] [DecidableEq ι] where
  look : P → K → ι → Option W
  Tight : P → Prop
  empty : P
  add : P → K → ι → W → P
  remove : P → K → ι → P
  look_empty : ∀ k i, look empty k i = none
  tight_empty : Tight empty
  look_add : ∀ p k i w k' i', look (add p k i w) k' i' = if k = k' ∧ i = i' then some w else look p k' i'
  tight_add : ∀ p k i w, Tight p → Tight (add p k i w)
  look_remove : ∀ p k i k' i', look (remove p k i) k' i' = if k = k' ∧ i = i' then none else look p k' i'
  tight_remove : ∀ p k i, Tight p → Tight (remove p k i)
  ext : ∀ p q, Tight p → Tight q → (∀ k i, look p k i = look q k i) → p = q

namespace Filing

variable {P K ι W E R : Type*} [DecidableEq K] [DecidableEq ι] (f : Filing P K ι W)

/-- File one identifier under several keys. -/
def addAll (key : E → K) (val : E → W) (p : P) (es : List E) (i : ι) : P :=
  es.foldl (fun p e => f.add p (key e) i (val e)) p

/-- Take one identifier out from under several keys. -/
def removeAll (key : E → K) (p : P) (es : List E) (i : ι) : P := es.foldl (fun p e => f.remove p (key e) i) p

variable {f}

theorem tight_addAll (key : E → K) (val : E → W) {p : P} (hp : f.Tight p) (es : List E) (i : ι) :
    f.Tight (f.addAll key val p es i) := by
  induction es generalizing p with
  | nil => exact hp
  | cons e es ih => exact ih (f.tight_add p (key e) i (val e) hp)

theorem tight_removeAll (key : E → K) {p : P} (hp : f.Tight p) (es : List E) (i : ι) :
    f.Tight (f.removeAll key p es i) := by
  induction es generalizing p with
  | nil => exact hp
  | cons e es ih => exact ih (f.tight_remove p (key e) i hp)

theorem look_addAll (key : E → K) (val : E → W) (p : P) (es : List E) (i : ι) {c : K → Option W}
    (hc : ∀ e ∈ es, c (key e) = some (val e)) (k : K) (j : ι) :
    f.look (f.addAll key val p es i) k j =
      if i = j ∧ es.any (fun e => key e = k) then c k else f.look p k j := by
  induction es generalizing p with
  | nil => simp [addAll]
  | cons e es ih =>
    have hrest := ih (f.add p (key e) i (val e)) (fun d hd => hc d (List.mem_cons_of_mem _ hd))
    rw [addAll,List.foldl_cons]
    refine hrest.trans ?_
    rw [f.look_add]
    by_cases hj : i = j
    · by_cases hk : key e = k
      · subst hk
        simp [hj,hc e (List.mem_cons_self ..)]
      · simp [hj,hk]
    · simp [hj]

theorem look_removeAll (key : E → K) (p : P) (es : List E) (i : ι) (k : K) (j : ι) :
    f.look (f.removeAll key p es i) k j =
      if i = j ∧ es.any (fun e => key e = k) then none else f.look p k j := by
  induction es generalizing p with
  | nil => simp [removeAll]
  | cons e es ih =>
    rw [removeAll,List.foldl_cons]
    refine (ih (f.remove p (key e) i)).trans ?_
    rw [f.look_remove]
    by_cases hj : i = j
    · by_cases hk : key e = k <;> simp [hj,hk]
    · simp [hj]

/-! ## Filing what the records contain -/

variable [Ord ι] [TransOrd ι] [LawfulEqOrd ι]

/-- Every record is filed under its keys, and nothing else is. -/
structure Files (f : Filing P K ι W) (p : P) (records : Map ι R) (content : R → K → Option W) : Prop where
  look : ∀ k i, f.look p k i = records[i]?.bind (fun r => content r k)
  tight : f.Tight p

namespace Files

variable {p q : P} {records : Map ι R} {content : R → K → Option W}

theorem empty : Files f f.empty (∅ : Map ι R) content where
  look k i := by simp [f.look_empty]
  tight := f.tight_empty

theorem unique (hp : Files f p records content) (hq : Files f q records content) : p = q :=
  f.ext p q hp.tight hq.tight (fun k i => (hp.look k i).trans (hq.look k i).symm)

theorem add (h : Files f p records content) {i : ι} (hi : records[i]? = none) (r : R) {key : E → K} {val : E → W}
    {es : List E} (hval : ∀ e ∈ es, content r (key e) = some (val e))
    (hall : ∀ k, (content r k).isSome → ∃ e ∈ es, key e = k) :
    Files f (f.addAll key val p es i) (records.insert i r) content where
  look k j := by
    rw [look_addAll key val p es i hval,h.look,Map.get_insert]
    by_cases hj : i = j
    · subst j
      by_cases hk : es.any (fun e => key e = k) = true
      · simp [hk]
      · have hnone : content r k = none := by
          rw [← Option.not_isSome_iff_eq_none]
          intro hs
          obtain ⟨e,he,rfl⟩ := hall k hs
          exact hk (List.any_eq_true.mpr ⟨e,he,by simp⟩)
        simp [hk,hi,hnone]
    · simp [hj]
  tight := tight_addAll key val h.tight es i

theorem remove (h : Files f p records content) {i : ι} {r : R} (hi : records[i]? = some r) {key : E → K}
    {es : List E} (hall : ∀ k, (content r k).isSome → ∃ e ∈ es, key e = k) :
    Files f (f.removeAll key p es i) (records.erase i) content where
  look k j := by
    rw [look_removeAll,h.look,Map.get_erase]
    by_cases hj : i = j
    · subst j
      by_cases hk : es.any (fun e => key e = k) = true
      · simp [hk]
      · have hnone : content r k = none := by
          rw [← Option.not_isSome_iff_eq_none]
          intro hs
          obtain ⟨e,he,rfl⟩ := hall k hs
          exact hk (List.any_eq_true.mpr ⟨e,he,by simp⟩)
        simp [hk,hi,hnone]
    · simp [hj]
  tight := tight_removeAll key h.tight es i

end Files

/-! ## Filing systems -/

section Systems

variable {K' : Type*} [Ord K] [TransOrd K] [LawfulEqOrd K] [Ord K'] [TransOrd K'] [LawfulEqOrd K'] [DecidableEq K']

/-- Sets of identifiers under keys. -/
def sets : Filing (Index K ι) K ι Unit where
  look m k i := if i ∈ m.ids k then some () else none
  Tight m := m.Tight
  empty := ∅
  add m k i _ := m.add k i
  remove m k i := m.remove k i
  look_empty k i := by simp
  tight_empty := Index.tight_empty
  look_add m k i w k' i' := by
    rw [Index.ids_add]
    by_cases hk : k = k'
    · by_cases hi : i = i'
      · simp [hk,hi]
      · simp [hk,hi,Ne.symm hi]
    · simp [hk]
  tight_add m k i _ h := Index.add_tight h k i
  look_remove m k i k' i' := by
    rw [Index.ids_remove]
    by_cases hk : k = k'
    · by_cases hi : i = i'
      · simp [hk,hi]
      · simp [hk,hi,Ne.symm hi]
    · simp [hk]
  tight_remove m k i h := Index.remove_tight h k i
  ext m n hm hn h := by
    refine Index.ext_ids hm hn ?_
    intro k
    ext i
    have hki := h k i
    by_cases hi : i ∈ m.ids k <;> by_cases hj : i ∈ n.ids k <;> simp_all

end Systems

end Filing

/-! ## Derived structures -/

section Derived

variable {ι R S D : Type*} [Ord ι] [TransOrd ι] [LawfulEqOrd ι] [DecidableEq ι]

/-- What is kept of each record by itself. -/
def Forward (docs : Map ι D) (records : Map ι R) (doc : R → Option D) : Prop :=
  ∀ i : ι, docs[i]? = records[i]?.bind doc

namespace Forward

variable {docs docs' : Map ι D} {records : Map ι R} {doc : R → Option D}

theorem empty : Forward (∅ : Map ι D) (∅ : Map ι R) doc := by
  intro i
  simp

theorem unique (h : Forward docs records doc) (h' : Forward docs' records doc) : docs = docs' :=
  Map.ext (fun i => (h i).trans (h' i).symm)

theorem drop (h : Forward docs records doc) (i : ι) : Forward (docs.erase i) (records.erase i) doc := by
  intro j
  rw [Map.get_erase,Map.get_erase,h]
  split_ifs <;> rfl

theorem keep (h : Forward docs records doc) (i : ι) {r : R} {d : D} (hd : doc r = some d) :
    Forward (docs.insert i d) (records.insert i r) doc := by
  intro j
  rw [Map.get_insert,Map.get_insert,h]
  split_ifs
  · simp [hd]
  · rfl

theorem skip (h : Forward docs records doc) {i : ι} (hi : records[i]? = none) {r : R} (hd : doc r = none) :
    Forward docs (records.insert i r) doc := by
  intro j
  rw [Map.get_insert,h]
  split_ifs with hj
  · subst hj
    simp [hi,hd]
  · rfl

end Forward

/-- How the document kept of a record is filed: the entries it is filed by, with a key and a value each, and
what it then has under a key. -/
structure Keyed (D E K W : Type*) where
  list : D → List E
  key : E → K
  val : E → W
  content : D → K → Option W
  listed : ∀ d, ∀ e ∈ list d, content d (key e) = some (val e)
  all : ∀ d k, (content d k).isSome → ∃ e ∈ list d, key e = k

/-- A document that is filed under each member of a list. -/
def Keyed.ofList {D K : Type*} [DecidableEq K] (list : D → List K) : Keyed D K K Unit where
  list := list
  key k := k
  val _ := ()
  content d k := if k ∈ list d then some () else none
  listed d k hk := if_pos hk
  all d k hk := by
    split_ifs at hk with h
    · exact ⟨k,h,rfl⟩
    · cases hk

section Shelves

variable {P K W E : Type*} [DecidableEq K]

namespace Filing

variable (f : Filing P K ι W) (keyed : Keyed D E K W)

/-- Take a document out again, if there is one. -/
def takeOut (p : P) (d : Option D) (i : ι) : P :=
  match d with
  | none => p
  | some d => f.removeAll keyed.key p (keyed.list d) i

/-- File a document, if there is one. -/
def putIn (p : P) (d : Option D) (i : ι) : P :=
  match d with
  | none => p
  | some d => f.addAll keyed.key keyed.val p (keyed.list d) i

/-- Every record is filed as its document says. -/
def Shelved (p : P) (records : Map ι R) (doc : R → Option D) : Prop :=
  Files f p records (fun r k => (doc r).bind (fun d => keyed.content d k))

variable {f keyed} {p : P} {docs : Map ι D} {records : Map ι R} {doc : R → Option D}

theorem Shelved.empty : f.Shelved keyed f.empty (∅ : Map ι R) doc := Files.empty

theorem Shelved.takeOut (h : f.Shelved keyed p records doc) (hd : Forward docs records doc) (i : ι) :
    f.Shelved keyed (f.takeOut keyed p docs[i]? i) (records.erase i) doc := by
  cases hr : records[i]? with
  | none =>
    have hnone : docs[i]? = none := by rw [hd,hr]; rfl
    rw [hnone,Map.erase_none hr]
    exact h
  | some r =>
    have hdoc : docs[i]? = doc r := by rw [hd,hr]; rfl
    rw [hdoc]
    cases hc : doc r with
    | none =>
      -- nothing is filed of the record
      have hrem : Files f (f.removeAll keyed.key p [] i) (records.erase i) _ := Files.remove h hr (by
        intro k hk
        simp [hc] at hk)
      exact hrem
    | some d =>
      refine Files.remove h hr ?_
      intro k hk
      rw [hc] at hk
      exact keyed.all d k hk

theorem Shelved.putIn (h : f.Shelved keyed p records doc) {i : ι} (hi : records[i]? = none) (r : R) :
    f.Shelved keyed (f.putIn keyed p (doc r) i) (records.insert i r) doc := by
  cases hc : doc r with
  | none =>
    have hadd : Files f (f.addAll keyed.key keyed.val p [] i) (records.insert i r) _ := Files.add h hi r (by simp) (by
      intro k hk
      simp [hc] at hk)
    exact hadd
  | some d =>
    refine Files.add h hi r ?_ ?_
    · intro e he
      rw [hc]
      exact keyed.listed d e he
    · intro k hk
      rw [hc] at hk
      exact keyed.all d k hk

end Filing

/-- Remember a document, if there is one. -/
def Forward.keepDoc (docs : Map ι D) (i : ι) (d : Option D) : Map ι D :=
  match d with
  | none => docs
  | some d => docs.insert i d

theorem Forward.keepDoc_insert {docs : Map ι D} {records : Map ι R} {doc : R → Option D} (h : Forward docs records doc)
    {i : ι} (hi : records[i]? = none) (r : R) : Forward (Forward.keepDoc docs i (doc r)) (records.insert i r) doc := by
  cases hc : doc r with
  | none => exact h.skip hi hc
  | some d => exact h.keep i hc

end Shelves

/-- A structure derived from records: how it is kept when one is stored or dropped, and what it
then says of them. -/
structure Derived (ι R S : Type*) [Ord ι] [TransOrd ι] [LawfulEqOrd ι] where
  empty : S
  put : S → R → S
  drop : S → ι → S
  ident : R → ι
  Holds : S → Map ι R → Prop
  Same : S → S → Prop
  holds_empty : Holds empty ∅
  holds_put : ∀ s m r, Holds s m → Holds (put s r) (m.insert (ident r) r)
  holds_drop : ∀ s m i, Holds s m → Holds (drop s i) (m.erase i)
  same : ∀ s s' m, Holds s m → Holds s' m → Same s s'

namespace Derived

variable (d : Derived ι R S)

theorem holds_foldl (l : List R) {s : S} {m : Map ι R} (h : d.Holds s m) :
    d.Holds (l.foldl d.put s) (l.foldl (fun m r => m.insert (d.ident r) r) m) := by
  induction l generalizing s m with
  | nil => exact h
  | cons r l ih => exact ih (d.holds_put s m r h)

theorem holds_build {m : Map ι R} (hid : ∀ (i : ι) (r : R), m[i]? = some r → d.ident r = i) :
    d.Holds ((m.toList.map Prod.snd).foldl d.put d.empty) m := by
  have h := d.holds_foldl (m.toList.map Prod.snd) d.holds_empty
  simp only [List.foldl_map] at h ⊢
  rwa [Map.foldl_toList_key hid] at h

end Derived
end Derived

theorem Map.insert_erase {V : Type} (m : Map ℕ V) (i : ℕ) (v : V) : (m.erase i).insert i v = m.insert i v := by
  apply Map.ext
  intro k
  simp only [Map.get_insert,Map.get_erase]
  split_ifs <;> rfl

end Lib
