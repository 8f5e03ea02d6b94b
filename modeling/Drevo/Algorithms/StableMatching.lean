import Drevo.Lib.Index
import Drevo.Lib.Matching
import Drevo.Lib.Sorted

/-! Stable matching by deferred acceptance: free proposers wait in a queue, and each tries the acceptors of its list
that accept it from where it left off. -/
namespace Drevo.Algorithms
open Lib

/-- An id and its preference list over the other side, most preferred first. -/
abbrev Preferences := ℕ × List ℕ

/-- The next rank, unless there is one. -/
def addRank (ranks : Map ℕ ℕ) (p : ℕ) : Map ℕ ℕ := if ranks.contains p then ranks else ranks.insert p ranks.size

/-- The ranks of the proposers that an acceptor lists, at their first mention. -/
def ranksOf (proposerIds : Finset ℕ) (list : List ℕ) : Map ℕ ℕ := (list.filter (· ∈ proposerIds)).foldl addRank ∅

def acceptorRanks (proposers acceptors : List Preferences) : Map ℕ (Map ℕ ℕ) :=
  acceptors.foldl (fun m entry => m.insert entry.1 (ranksOf (proposers.map Prod.fst).toFinset entry.2)) ∅

/-- The first mentions in a list, of what is not seen yet. -/
def firstMentions : Finset ℕ → List ℕ → List ℕ
  | _,[] => []
  | seen,a::rest => if a ∈ seen then firstMentions seen rest else a :: firstMentions (insert a seen) rest

/-- A proposer's list reduced to acceptors that accept it. -/
def acceptable (acceptorRank : Map ℕ (Map ℕ ℕ)) (entry : Preferences) : List ℕ :=
  firstMentions ∅ (entry.2.filter (fun a => acceptorRank[a]?.any (fun ranks => ranks.contains entry.1)))

def proposerLists (proposers : List Preferences) (acceptorRank : Map ℕ (Map ℕ ℕ)) : Map ℕ (List ℕ) :=
  proposers.foldl (fun m entry => m.insert entry.1 (acceptable acceptorRank entry)) ∅

/-- Where the proposers are on their lists, whom each acceptor holds, and who is free. -/
structure Proposals where
  nextChoice : Map ℕ ℕ
  heldBy : Map ℕ ℕ
  free : List ℕ

/-- The order of ranks, a missing one before all others. -/
def rankLt : Option ℕ → Option ℕ → Bool
  | _,none => false
  | none,some _ => true
  | some i,some j => i < j

section Run
variable (lists : Map ℕ (List ℕ)) (rank : ℕ → ℕ → Option ℕ)

/-- A free proposer tries what is left of its list until an acceptor holds it; the one that is let go, if any. -/
def tryNext (p : ℕ) (heldBy : Map ℕ ℕ) : ℕ → List ℕ → ℕ × Map ℕ ℕ × Option ℕ
  | cursor,[] => (cursor,heldBy,none)
  | cursor,a::rest =>
    match heldBy[a]? with
    | none => (cursor+1,heldBy.insert a p,none)
    | some held => if rankLt (rank a p) (rank a held) then (cursor+1,heldBy.insert a p,some held) else tryNext p heldBy (cursor+1) rest

/-- One round of the loop; none when no proposer is free. -/
def Proposals.turn (s : Proposals) : Option Proposals :=
  match s.free with
  | [] => none
  | p::free =>
    match lists[p]? with
    | none => some { s with free }
    | some list =>
      let cursor := s.nextChoice[p]?.getD 0
      let (cursor,heldBy,released) := tryNext rank p s.heldBy cursor (list.drop cursor)
      some ⟨s.nextChoice.insert p cursor,heldBy,free ++ released.toList⟩

def matchingLoop : ℕ → Proposals → Option Proposals
  | 0,_ => none
  | fuel+1,s =>
    match s.turn lists rank with
    | none => some s
    | some s => matchingLoop fuel s

end Run

/-- The order of pairs. -/
def PairLe (x y : ℕ × ℕ) : Prop := x.1 < y.1 ∨ x.1 = y.1 ∧ x.2 ≤ y.2

instance (x y : ℕ × ℕ) : Decidable (PairLe x y) := inferInstanceAs (Decidable (_ ∨ _))

def stableMatching (fuel : ℕ) (proposers acceptors : List Preferences) : Option (List (ℕ × ℕ)) :=
  let acceptorRank := acceptorRanks proposers acceptors
  let lists := proposerLists proposers acceptorRank
  let rank := fun a p => acceptorRank[a]?.bind (fun ranks => ranks[p]?)
  (matchingLoop lists rank fuel ⟨∅,∅,lists.keys⟩).map
    (fun s => (s.heldBy.toList.map (fun held => (held.2,held.1))).insertionSort PairLe)

/-! ## The lists -/

/-- A member's list, empty for one that is not there. -/
def listOf (side : List Preferences) (id : ℕ) : List ℕ := ((side.find? (fun entry => entry.1 = id)).map Prod.snd).getD []

def market (proposers acceptors : List Preferences) : Market ℕ ℕ := ⟨listOf proposers,listOf acceptors⟩

variable {proposers acceptors side : List Preferences} {ids seen : Finset ℕ} {l : List ℕ} {p q a b id : ℕ} {f : ℕ → Bool}

theorem listOf_eq (hside : (side.map Prod.fst).Nodup) (h : (id,l) ∈ side) : listOf side id = l := by
  obtain ⟨entry,hfind⟩ := Option.isSome_iff_exists.mp (List.find?_isSome (p := fun entry : Preferences => entry.1 = id)|>.mpr ⟨_,h,by simp⟩)
  have hentry : entry = (id,l) := by
    have hid : entry.1 = id := by simpa using List.find?_some hfind
    exact List.inj_on_of_nodup_map hside (List.mem_of_find?_eq_some hfind) h hid
  rw [listOf,hfind,hentry]
  rfl

theorem mem_listOf (h : a ∈ listOf side id) : (id,listOf side id) ∈ side := by
  unfold listOf at h ⊢
  cases hfind : side.find? (fun entry => entry.1 = id) with
  | none =>
    rw [hfind] at h
    cases h
  | some entry =>
    have hid : entry.1 = id := by simpa using List.find?_some hfind
    have hmem := List.mem_of_find?_eq_some hfind
    rw [← hid]
    exact hmem

theorem mem_firstMentions : a ∈ firstMentions seen l ↔ a ∈ l ∧ a ∉ seen := by
  induction l generalizing seen with
  | nil => simp [firstMentions]
  | cons x l ih =>
    rw [firstMentions]
    split_ifs with hx
    · rw [ih,List.mem_cons]
      constructor
      · exact fun h => ⟨.inr h.1,h.2⟩
      · rintro ⟨rfl | ha,hs⟩
        · exact absurd hx hs
        · exact ⟨ha,hs⟩
    · rw [List.mem_cons,List.mem_cons,ih,Finset.mem_insert]
      constructor
      · rintro (rfl | ⟨ha,hs⟩)
        · exact ⟨.inl rfl,hx⟩
        · exact ⟨.inr ha,fun h => hs (.inr h)⟩
      · rintro ⟨rfl | ha,hs⟩
        · exact .inl rfl
        · by_cases hax : a = x
          · exact .inl hax
          · exact .inr ⟨ha,by simp [hax,hs]⟩

theorem firstMentions_sorted : (firstMentions seen (l.filter f)).Pairwise (fun a b => l.idxOf a < l.idxOf b) := by
  induction l generalizing seen with
  | nil => exact List.Pairwise.nil
  | cons x l ih =>
    have hlater : ∀ {seen : Finset ℕ}, (∀ a ∈ firstMentions seen (l.filter f), x ≠ a) →
        (firstMentions seen (l.filter f)).Pairwise (fun a b => (x::l).idxOf a < (x::l).idxOf b) := by
      intro seen hne
      refine ih.imp_of_mem (fun {a b} ha hb hlt => ?_)
      rw [List.idxOf_cons_ne _ (hne a ha),List.idxOf_cons_ne _ (hne b hb)]
      exact Nat.succ_lt_succ hlt
    by_cases hf : f x
    · rw [List.filter_cons_of_pos hf,firstMentions]
      split_ifs with hx
      · refine hlater (fun a ha => ?_)
        rintro rfl
        exact (mem_firstMentions.mp ha).2 hx
      · have hne : ∀ a ∈ firstMentions (insert x seen) (l.filter f), x ≠ a := by
          rintro a ha rfl
          exact (mem_firstMentions.mp ha).2 (Finset.mem_insert_self _ _)
        refine List.pairwise_cons.mpr ⟨fun a ha => ?_,hlater hne⟩
        rw [List.idxOf_cons_self,List.idxOf_cons_ne _ (hne a ha)]
        exact Nat.succ_pos _
    · rw [List.filter_cons_of_neg hf]
      refine hlater (fun a ha => ?_)
      rintro rfl
      have := (mem_firstMentions.mp ha).1
      simp [hf] at this

variable {ranks : Map ℕ ℕ} {i : ℕ}

theorem addRank_get (h : ranks[p]? = some i) : (addRank ranks q)[p]? = some i := by
  unfold addRank
  split_ifs with hq
  · exact h
  · rw [Map.get_insert,if_neg]
    · exact h
    · rintro rfl
      rw [Map.contains_eq,h] at hq
      exact hq rfl

theorem addRank_of_ne (hne : q ≠ p) : (addRank ranks q)[p]? = ranks[p]? := by
  unfold addRank
  split_ifs
  · rfl
  · rw [Map.get_insert,if_neg hne]

theorem addRank_new (h : ranks[p]? = none) : (addRank ranks p)[p]? = some ranks.size ∧ (addRank ranks p).size = ranks.size+1 := by
  have hnot : ¬ ranks.contains p := by
    rw [Map.contains_eq,h]
    exact Bool.false_ne_true
  rw [addRank,if_neg hnot]
  exact ⟨by simp,by rw [Std.ExtTreeMap.size_insert,if_neg (by simpa using hnot)]⟩

theorem addRank_size : ranks.size ≤ (addRank ranks p).size := by
  unfold addRank
  split_ifs
  · exact le_rfl
  · exact Std.ExtTreeMap.size_le_size_insert

theorem foldRanks_get (h : ranks[p]? = some i) : (l.foldl addRank ranks)[p]? = some i := by
  induction l generalizing ranks with
  | nil => exact h
  | cons q l ih => exact ih (addRank_get h)

theorem foldRanks_not (h : ranks[p]? = none) (hp : p ∉ l) : (l.foldl addRank ranks)[p]? = none := by
  induction l generalizing ranks with
  | nil => exact h
  | cons q l ih =>
    rw [List.mem_cons,not_or] at hp
    exact ih (by rw [addRank_of_ne (Ne.symm hp.1),h]) hp.2

theorem foldRanks_new (h : ranks[p]? = none) (hp : p ∈ l) : ∃ i, (l.foldl addRank ranks)[p]? = some i ∧ ranks.size ≤ i := by
  induction l generalizing ranks with
  | nil => cases hp
  | cons q l ih =>
    rw [List.foldl_cons]
    by_cases hqp : q = p
    · subst hqp
      exact ⟨ranks.size,foldRanks_get (addRank_new h).1,le_rfl⟩
    · obtain ⟨i,hi,hle⟩ := ih (show (addRank ranks q)[p]? = none by rw [addRank_of_ne hqp,h]) ((List.mem_cons.mp hp).resolve_left (Ne.symm hqp))
      exact ⟨i,hi,addRank_size.trans hle⟩

theorem foldRanks_lt (hp : ranks[p]? = none) (hq : ranks[q]? = none) (hfp : f p) (hfq : f q) (hmem : q ∈ l) (hlt : l.idxOf p < l.idxOf q) :
    ∃ i j, ((l.filter f).foldl addRank ranks)[p]? = some i ∧ ((l.filter f).foldl addRank ranks)[q]? = some j ∧ i < j := by
  induction l generalizing ranks with
  | nil => cases hmem
  | cons x l ih =>
    have hxq : x ≠ q := by
      rintro rfl
      rw [List.idxOf_cons_self] at hlt
      cases hlt
    have hmem : q ∈ l := (List.mem_cons.mp hmem).resolve_left (Ne.symm hxq)
    by_cases hxp : x = p
    · subst hxp
      obtain ⟨hget,hsize⟩ := addRank_new hp
      rw [List.filter_cons_of_pos hfp,List.foldl_cons]
      obtain ⟨j,hj,hle⟩ := foldRanks_new (show (addRank ranks x)[q]? = none by rw [addRank_of_ne hxq,hq]) (List.mem_filter.mpr ⟨hmem,hfq⟩)
      exact ⟨ranks.size,j,foldRanks_get hget,hj,by omega⟩
    · rw [List.idxOf_cons_ne _ hxp,List.idxOf_cons_ne _ hxq] at hlt
      by_cases hf : f x
      · rw [List.filter_cons_of_pos hf,List.foldl_cons]
        exact ih (by rw [addRank_of_ne hxp,hp]) (by rw [addRank_of_ne hxq,hq]) hmem (Nat.lt_of_succ_lt_succ hlt)
      · rw [List.filter_cons_of_neg hf]
        exact ih hp hq hmem (Nat.lt_of_succ_lt_succ hlt)

theorem ranksOf_contains : (ranksOf ids l).contains p ↔ p ∈ l ∧ p ∈ ids := by
  have hempty : (∅ : Map ℕ ℕ)[p]? = none := by simp
  rw [Map.contains_eq,ranksOf]
  by_cases hp : p ∈ l.filter (· ∈ ids)
  · obtain ⟨i,hi,-⟩ := foldRanks_new hempty hp
    rw [hi]
    simpa using hp
  · rw [foldRanks_not hempty hp]
    simpa using hp

theorem ranksOf_lt (hp : p ∈ l) (hpi : p ∈ ids) (hq : q ∈ l) (hqi : q ∈ ids) :
    rankLt (ranksOf ids l)[p]? (ranksOf ids l)[q]? ↔ l.idxOf p < l.idxOf q := by
  have hempty : ∀ p : ℕ, (∅ : Map ℕ ℕ)[p]? = none := by simp
  have hlt : ∀ {p q : ℕ}, p ∈ ids → q ∈ l → q ∈ ids → l.idxOf p < l.idxOf q →
      ∃ i j, (ranksOf ids l)[p]? = some i ∧ (ranksOf ids l)[q]? = some j ∧ i < j := by
    intro p q hpi hq hqi h
    exact foldRanks_lt (hempty p) (hempty q) (f := fun p => p ∈ ids) (by simpa using hpi) (by simpa using hqi) hq h
  obtain h | h | h := lt_trichotomy (l.idxOf p) (l.idxOf q)
  · obtain ⟨i,j,hi,hj,hij⟩ := hlt hpi hq hqi h
    simp [hi,hj,rankLt,hij,h]
  · obtain rfl := (List.idxOf_inj hp).mp h
    cases hrank : (ranksOf ids l)[p]? <;> simp [rankLt]
  · obtain ⟨i,j,hi,hj,hij⟩ := hlt hqi hp hpi h
    simp only [hi,hj,rankLt,decide_eq_true_eq]
    omega

/-! ## The maps -/

theorem acceptorRanks_get (ha : (acceptors.map Prod.fst).Nodup) (h : (a,l) ∈ acceptors) :
    (acceptorRanks proposers acceptors)[a]? = some (ranksOf (proposers.map Prod.fst).toFinset l) := by
  rw [acceptorRanks,Map.foldl_insert_iff (List.pairwise_map.mp ha)]
  exact ⟨_,h,rfl,rfl⟩

theorem acceptorRanks_any (ha : (acceptors.map Prod.fst).Nodup) (hp : p ∈ proposers.map Prod.fst) :
    (acceptorRanks proposers acceptors)[a]?.any (fun ranks => ranks.contains p) ↔ p ∈ listOf acceptors a := by
  rw [Option.any_eq_true]
  constructor
  · rintro ⟨ranks,hranks,hcontains⟩
    rw [acceptorRanks,Map.foldl_insert_iff (List.pairwise_map.mp ha)] at hranks
    obtain ⟨⟨id,l⟩,hmem,rfl,rfl⟩ := hranks
    rw [listOf_eq ha hmem]
    exact (ranksOf_contains.mp hcontains).1
  · intro hmem
    exact ⟨_,acceptorRanks_get ha (mem_listOf hmem),ranksOf_contains.mpr ⟨hmem,by simpa using hp⟩⟩

theorem proposerLists_get (hp : (proposers.map Prod.fst).Nodup) {acceptorRank : Map ℕ (Map ℕ ℕ)} {list : List ℕ} :
    (proposerLists proposers acceptorRank)[p]? = some list ↔ ∃ l, (p,l) ∈ proposers ∧ acceptable acceptorRank (p,l) = list := by
  rw [proposerLists,Map.foldl_insert_iff (List.pairwise_map.mp hp)]
  constructor
  · rintro ⟨⟨id,l⟩,hmem,rfl,rfl⟩
    exact ⟨l,hmem,rfl⟩
  · rintro ⟨l,hmem,rfl⟩
    exact ⟨(p,l),hmem,rfl,rfl⟩

/-- The lists and ranks are those of the market. -/
structure Faithful (m : Market ℕ ℕ) (lists : Map ℕ (List ℕ)) (rank : ℕ → ℕ → Option ℕ) : Prop where
  mem : ∀ p list, lists[p]? = some list → ∀ a, a ∈ list ↔ m.Accepts p a
  sorted : ∀ (p : ℕ) (list : List ℕ), lists[p]? = some list → list.Pairwise (m.ProposerPrefers p)
  known : ∀ p a, m.Accepts p a → ∃ list, lists[p]? = some list
  rank : ∀ a p q, m.Accepts p a → m.Accepts q a → (rankLt (rank a p) (rank a q) ↔ m.AcceptorPrefers a p q)

theorem faithful (hp : (proposers.map Prod.fst).Nodup) (ha : (acceptors.map Prod.fst).Nodup) :
    Faithful (market proposers acceptors) (proposerLists proposers (acceptorRanks proposers acceptors))
      (fun a p => (acceptorRanks proposers acceptors)[a]?.bind (fun ranks => ranks[p]?)) where
  mem p list hlist a := by
    obtain ⟨l,hmem,rfl⟩ := (proposerLists_get hp).mp hlist
    have hid : p ∈ proposers.map Prod.fst := List.mem_map.mpr ⟨_,hmem,rfl⟩
    have hlist : (market proposers acceptors).proposer p = l := listOf_eq hp hmem
    rw [acceptable,mem_firstMentions,List.mem_filter,acceptorRanks_any ha hid,Market.Accepts,hlist]
    simp [market]
  sorted p list hlist := by
    obtain ⟨l,hmem,rfl⟩ := (proposerLists_get hp).mp hlist
    refine firstMentions_sorted.imp (fun {a b} hlt => ?_)
    have hlist : (market proposers acceptors).proposer p = l := listOf_eq hp hmem
    rw [Market.ProposerPrefers,hlist]
    exact hlt
  known p a haccepts := ⟨_,(proposerLists_get hp).mpr ⟨_,mem_listOf haccepts.1,rfl⟩⟩
  rank a p q hpa hqa := by
    have hid : ∀ {p}, (market proposers acceptors).Accepts p a → p ∈ (proposers.map Prod.fst).toFinset := by
      intro p h
      exact List.mem_toFinset.mpr (List.mem_map.mpr ⟨_,mem_listOf h.1,rfl⟩)
    rw [acceptorRanks_get ha (mem_listOf hpa.2)]
    exact ranksOf_lt hpa.2 (hid hpa) hqa.2 (hid hqa)

/-! ## The rounds -/

/-- What proposers have tried whose cursors are there on their lists. -/
def triedAt (lists : Map ℕ (List ℕ)) (cursor : ℕ → ℕ) (p a : ℕ) : Prop := ∃ list : List ℕ, lists[p]? = some list ∧ a ∈ list.take (cursor p)

def Proposals.cursor (s : Proposals) (p : ℕ) : ℕ := s.nextChoice[p]?.getD 0

/-- What holds between the rounds: no one holds the free proposers, and the others are held or at the ends of their
lists. -/
structure Running (m : Market ℕ ℕ) (lists : Map ℕ (List ℕ)) (s : Proposals) : Prop where
  deferred : Deferred m (fun a => s.heldBy[a]?) (triedAt lists s.cursor)
  nodup : s.free.Nodup
  free : ∀ p ∈ s.free, ∀ a : ℕ, s.heldBy[a]? ≠ some p
  idle : ∀ (p : ℕ) (list : List ℕ), lists[p]? = some list → p ∉ s.free → (∃ a : ℕ, s.heldBy[a]? = some p) ∨ list.length ≤ s.cursor p

variable {m : Market ℕ ℕ} {lists : Map ℕ (List ℕ)} {rank : ℕ → ℕ → Option ℕ} {heldBy : Map ℕ ℕ} {cursor : ℕ → ℕ} {c : ℕ} {list rest : List ℕ}
  {s s' : Proposals}

theorem Faithful.proposes (hf : Faithful m lists rank) (cursor : ℕ → ℕ) (hlist : lists[p]? = some list) (hfree : ∀ b : ℕ, heldBy[b]? ≠ some p)
    (hdrop : list.drop c = a::rest) : Proposes m (fun a => heldBy[a]?) (triedAt lists (Function.update cursor p c)) p a := by
  have hsplit : list.take c ++ a::rest = list := by rw [← hdrop,List.take_append_drop]
  have hsorted := hf.sorted p list hlist
  rw [← hsplit,List.pairwise_append,List.pairwise_cons] at hsorted
  obtain ⟨-,⟨hafter,-⟩,hbefore⟩ := hsorted
  have htried : ∀ b, triedAt lists (Function.update cursor p c) p b ↔ b ∈ list.take c := by
    intro b
    rw [triedAt,hlist,Function.update_self]
    simp
  refine ⟨(hf.mem p list hlist a).mp (by rw [← hsplit]; simp),fun h => ?_,hfree,fun b hb hlt => (htried b).mpr ?_⟩
  · exact absurd (hbefore a ((htried a).mp h) a List.mem_cons_self) (lt_irrefl _)
  · have hmem := (hf.mem p list hlist b).mpr hb
    rw [← hsplit,List.mem_append,List.mem_cons] at hmem
    obtain hmem | rfl | hmem := hmem
    · exact hmem
    · exact absurd hlt (lt_irrefl _)
    · exact absurd hlt (lt_asymm (hafter b hmem))

theorem triedAt_succ (hlist : lists[p]? = some list) (hdrop : list.drop c = a::rest) :
    triedAt lists (Function.update cursor p (c+1)) = triedAlso (triedAt lists (Function.update cursor p c)) p a := by
  have htake : list.take (c+1) = list.take c ++ [a] := by rw [List.take_add,hdrop,List.take_succ_cons,List.take_zero]
  funext q b
  apply propext
  unfold triedAlso triedAt
  by_cases hq : q = p
  · subst hq
    simp [hlist,htake]
  · simp [hq]

theorem held_insert (heldBy : Map ℕ ℕ) (a p : ℕ) : (fun x => (heldBy.insert a p)[x]?) = Function.update (fun x => heldBy[x]?) a (some p) := by
  funext x
  rw [Map.get_insert,Function.update_apply]
  simp only [eq_comm]

/-- A proposer tries what is left of its list until it is held or has tried it all. -/
theorem Faithful.tryNext (hf : Faithful m lists rank) (hlist : lists[p]? = some list) (hfree : ∀ b : ℕ, heldBy[b]? ≠ some p)
    (hdrop : list.drop c = rest) (h : Deferred m (fun a => heldBy[a]?) (triedAt lists (Function.update cursor p c))) :
    ∃ c' heldBy' released, tryNext rank p heldBy c rest = (c',heldBy',released) ∧
      Deferred m (fun a => heldBy'[a]?) (triedAt lists (Function.update cursor p c')) ∧ c ≤ c' ∧
      ((heldBy' = heldBy ∧ released = none ∧ list.length ≤ c') ∨
        ∃ a, heldBy' = heldBy.insert a p ∧ released = heldBy[a]? ∧ c < c' ∧ c' ≤ list.length) := by
  induction rest generalizing c with
  | nil => exact ⟨c,heldBy,none,rfl,h,le_rfl,.inl ⟨rfl,rfl,List.drop_eq_nil_iff.mp hdrop⟩⟩
  | cons a rest ih =>
    have hp := hf.proposes cursor hlist hfree hdrop
    have hlength : c+1 ≤ list.length := by
      by_contra hge
      rw [List.drop_eq_nil_iff.mpr (by omega)] at hdrop
      cases hdrop
    rw [Algorithms.tryNext]
    cases hheld : heldBy[a]? with
    | none =>
      refine ⟨c+1,heldBy.insert a p,none,rfl,?_,Nat.le_succ _,.inr ⟨a,rfl,hheld.symm,Nat.lt_succ_self _,hlength⟩⟩
      rw [held_insert,triedAt_succ hlist hdrop]
      refine h.takeUp hp (fun q hq => ?_)
      rw [hheld] at hq
      cases hq
    | some q =>
      have hqa : m.Accepts q a := h.accepts q a (h.holds q a hheld)
      simp only
      by_cases hlt : rankLt (rank a p) (rank a q) = true
      · rw [if_pos hlt]
        refine ⟨c+1,heldBy.insert a p,some q,rfl,?_,Nat.le_succ _,.inr ⟨a,rfl,hheld.symm,Nat.lt_succ_self _,hlength⟩⟩
        rw [held_insert,triedAt_succ hlist hdrop]
        refine h.takeUp hp (fun q' hq' => ?_)
        rw [hheld] at hq'
        cases hq'
        exact (hf.rank a p q hp.accepts hqa).mp hlt
      · rw [if_neg hlt]
        have hnext : Deferred m (fun a => heldBy[a]?) (triedAt lists (Function.update cursor p (c+1))) := by
          rw [triedAt_succ hlist hdrop]
          exact h.turnAway hp hheld (fun hprefers => hlt ((hf.rank a p q hp.accepts hqa).mpr hprefers))
        have hdrop' : list.drop (c+1) = rest := by rw [← List.drop_drop,hdrop,List.drop_succ_cons,List.drop_zero]
        obtain ⟨c',heldBy',released,heq,hdeferred,hle,hcases⟩ := ih hdrop' hnext
        refine ⟨c',heldBy',released,heq,hdeferred,by omega,hcases.imp_right ?_⟩
        rintro ⟨b,hb,hr,hlt',hle'⟩
        exact ⟨b,hb,hr,by omega,hle'⟩

/-- What is left to try and who is free. -/
def Proposals.left (lists : Map ℕ (List ℕ)) (ids : Finset ℕ) (s : Proposals) : ℕ :=
  ∑ p ∈ ids, ((lists[p]?.getD []).length - s.cursor p) + s.free.length

/-- A round keeps what holds between the rounds, and leaves less to do. -/
theorem Running.turn (hf : Faithful m lists rank) {ids : Finset ℕ} (hids : ∀ (p : ℕ) (list : List ℕ), lists[p]? = some list → p ∈ ids)
    (h : Running m lists s) (hturn : s.turn lists rank = some s') : Running m lists s' ∧ s'.left lists ids < s.left lists ids := by
  unfold Proposals.turn at hturn
  cases hfree : s.free with
  | nil =>
    rw [hfree] at hturn
    cases hturn
  | cons p free =>
    have hp : ∀ b : ℕ, s.heldBy[b]? ≠ some p := h.free p (hfree ▸ List.mem_cons_self)
    have hnodup := h.nodup
    rw [hfree,List.nodup_cons] at hnodup
    have hothers : ∀ q ∈ free, q ∈ s.free := fun q hq => hfree ▸ List.mem_cons_of_mem _ hq
    rw [hfree] at hturn
    simp only at hturn
    cases hlist : lists[p]? with
    | none =>
      rw [hlist] at hturn
      cases hturn
      refine ⟨⟨h.deferred,hnodup.2,fun q hq => h.free q (hothers q hq),fun q list hq hnot => h.idle q list hq ?_⟩,?_⟩
      · rw [hfree,List.mem_cons,not_or]
        refine ⟨?_,hnot⟩
        rintro rfl
        rw [hlist] at hq
        cases hq
      · simp [Proposals.left,Proposals.cursor,hfree]
    | some list =>
      have hcursor : Function.update s.cursor p (s.nextChoice[p]?.getD 0) = s.cursor := Function.update_eq_self _ _
      have hstart : Deferred m (fun a => s.heldBy[a]?) (triedAt lists (Function.update s.cursor p (s.nextChoice[p]?.getD 0))) := by
        rw [hcursor]
        exact h.deferred
      obtain ⟨c,heldBy,released,htry,hdeferred,hle,hcases⟩ := hf.tryNext hlist hp rfl hstart
      rw [hlist] at hturn
      simp only [htry,Option.some.injEq] at hturn
      subst hturn
      have hcursor' : Proposals.cursor ⟨s.nextChoice.insert p c,heldBy,free ++ released.toList⟩ = Function.update s.cursor p c := by
        funext q
        rw [Proposals.cursor,Map.get_insert,Function.update_apply]
        simp only [eq_comm (a := q)]
        split_ifs <;> rfl
      have hfall : ∀ q ∈ ids, (lists[q]?.getD []).length - Function.update s.cursor p c q ≤ (lists[q]?.getD []).length - s.cursor q := by
        intro q _
        by_cases hq : q = p
        · rw [hq,Function.update_self]
          exact Nat.sub_le_sub_left hle _
        · rw [Function.update_of_ne hq]
      obtain ⟨rfl,rfl,hend⟩ | ⟨a,rfl,rfl,hlt,hlength⟩ := hcases
      · refine ⟨⟨by rw [hcursor']; exact hdeferred,by simpa using hnodup.2,fun q hq => h.free q (hothers q (by simpa using hq)),fun q l hq hnot => ?_⟩,?_⟩
        · rw [hcursor']
          by_cases hqp : q = p
          · subst hqp
            rw [hlist] at hq
            cases hq
            exact .inr (by rw [Function.update_self]; exact hend)
          · rw [Function.update_of_ne hqp]
            refine h.idle q l hq ?_
            rw [hfree,List.mem_cons,not_or]
            exact ⟨hqp,by simpa using hnot⟩
        · rw [Proposals.left,Proposals.left,hcursor',hfree]
          have := Finset.sum_le_sum hfall
          simp only [Option.toList_none,List.append_nil,List.length_cons]
          omega
      · have hreleased : ∀ q, q ∈ s.heldBy[a]?.toList ↔ s.heldBy[a]? = some q := by simp
        refine ⟨⟨by rw [hcursor']; exact hdeferred,?_,fun q hq b => ?_,fun q l hq hnot => ?_⟩,?_⟩
        · refine hnodup.2.append (by cases s.heldBy[a]? <;> simp) (fun q hq hq' => ?_)
          exact h.free q (hothers q hq) a ((hreleased q).mp hq')
        · rw [Map.get_insert]
          obtain hq | hq := List.mem_append.mp hq
          · split_ifs with hab
            · intro heq
              cases heq
              exact hnodup.1 hq
            · exact h.free q (hothers q hq) b
          · have hq := (hreleased q).mp hq
            split_ifs with hab
            · intro heq
              cases heq
              exact hp a hq
            · exact fun hb => hab (h.deferred.one hq hb)
        · rw [hcursor']
          by_cases hqp : q = p
          · exact .inl ⟨a,by rw [hqp,Map.get_insert,if_pos rfl]⟩
          · rw [Function.update_of_ne hqp]
            rw [List.mem_append,not_or,hreleased] at hnot
            have hbefore : q ∉ s.free := by
              rw [hfree,List.mem_cons,not_or]
              exact ⟨hqp,hnot.1⟩
            refine (h.idle q l hq hbefore).imp_left ?_
            rintro ⟨b,hb⟩
            refine ⟨b,?_⟩
            rw [Map.get_insert,if_neg]
            · exact hb
            · rintro rfl
              exact hnot.2 hb
        · rw [Proposals.left,Proposals.left,hcursor',hfree]
          have hsum := Finset.sum_lt_sum hfall ⟨p,hids p list hlist,by
            rw [Function.update_self,hlist]
            exact Nat.sub_lt_sub_left (hlt.trans_le hlength) hlt⟩
          have hone : s.heldBy[a]?.toList.length ≤ 1 := by cases s.heldBy[a]? <;> simp
          simp only [List.length_append,List.length_cons]
          omega

/-- The loop ends, and what is held is stable and best. -/
theorem Running.loop (hf : Faithful m lists rank) (ids : Finset ℕ) (hids : ∀ (p : ℕ) (list : List ℕ), lists[p]? = some list → p ∈ ids)
    (h : Running m lists s) : ∃ s', (∀ fuel, s.left lists ids < fuel → matchingLoop lists rank fuel s = some s') ∧
      m.Stable (fun p a => s'.heldBy[a]? = some p) ∧ m.Best (fun p a => s'.heldBy[a]? = some p) := by
  induction hn : s.left lists ids using Nat.strong_induction_on generalizing s with
  | _ n ih =>
    subst hn
    cases hturn : s.turn lists rank with
    | none =>
      have hfree : s.free = [] := by
        unfold Proposals.turn at hturn
        split at hturn
        · assumption
        · split at hturn <;> cases hturn
      have hdone : ∀ p, (∃ a : ℕ, s.heldBy[a]? = some p) ∨ ∀ a, m.Accepts p a → triedAt lists s.cursor p a := by
        intro p
        cases hlist : lists[p]? with
        | none =>
          refine .inr (fun a haccepts => ?_)
          obtain ⟨list,hlist'⟩ := hf.known p a haccepts
          rw [hlist] at hlist'
          cases hlist'
        | some list =>
          refine (h.idle p list hlist (by simp [hfree])).imp_right (fun hend a haccepts => ⟨list,hlist,?_⟩)
          rw [List.take_of_length_le hend]
          exact (hf.mem p list hlist a).mpr haccepts
      refine ⟨s,fun fuel hfuel => ?_,h.deferred.stable hdone,h.deferred.isBest hdone⟩
      obtain ⟨fuel,rfl⟩ := Nat.exists_eq_add_of_le' (Nat.one_le_of_lt hfuel)
      rw [matchingLoop,hturn]
    | some s₁ =>
      obtain ⟨h₁,hless⟩ := h.turn hf hids hturn
      obtain ⟨s',hrun,hstable,hbest⟩ := ih _ hless h₁ rfl
      refine ⟨s',fun fuel hfuel => ?_,hstable,hbest⟩
      obtain ⟨fuel,rfl⟩ := Nat.exists_eq_add_of_le' (Nat.one_le_of_lt hfuel)
      rw [matchingLoop,hturn]
      exact hrun fuel (by omega)

theorem running_start (m : Market ℕ ℕ) (lists : Map ℕ (List ℕ)) : Running m lists ⟨∅,∅,lists.keys⟩ where
  deferred := by
    have hnone : ∀ p a, ¬ triedAt lists (Proposals.cursor ⟨∅,∅,lists.keys⟩) p a := by
      rintro p a ⟨list,-,ha⟩
      simp [Proposals.cursor] at ha
    have htried : triedAt lists (Proposals.cursor ⟨∅,∅,lists.keys⟩) = fun _ _ => False := by
      funext p a
      exact eq_false (hnone p a)
    have hheld : (fun a : ℕ => (∅ : Map ℕ ℕ)[a]?) = fun _ => none := by
      funext a
      simp
    rw [htried]
    show Deferred m (fun a : ℕ => (∅ : Map ℕ ℕ)[a]?) _
    rw [hheld]
    exact deferred_start
  nodup := Std.ExtTreeMap.nodup_keys
  free := by simp
  idle p list hlist hnot := by
    refine absurd ?_ hnot
    rw [Std.ExtTreeMap.mem_keys,← Std.ExtTreeMap.contains_iff_mem,Map.contains_eq,hlist]
    rfl

/-! ## The result -/

theorem listOf_perm {side' : List Preferences} (hside : (side.map Prod.fst).Nodup) (hperm : side'.Perm side) : listOf side' id = listOf side id := by
  have hside' : (side'.map Prod.fst).Nodup := (hperm.map _).nodup_iff.mpr hside
  by_cases hmem : ∃ l, (id,l) ∈ side
  · obtain ⟨l,hmem⟩ := hmem
    rw [listOf_eq hside hmem,listOf_eq hside' (hperm.mem_iff.mpr hmem)]
  · have hnil : ∀ a, a ∉ listOf side id := fun a ha => hmem ⟨_,mem_listOf ha⟩
    have hnil' : ∀ a, a ∉ listOf side' id := fun a ha => hmem ⟨_,hperm.mem_iff.mp (mem_listOf ha)⟩
    rw [List.eq_nil_iff_forall_not_mem.mpr hnil,List.eq_nil_iff_forall_not_mem.mpr hnil']

theorem PairLe.total (x y : ℕ × ℕ) : PairLe x y ∨ PairLe y x := by
  unfold PairLe
  omega

theorem PairLe.trans {x y z : ℕ × ℕ} (h : PairLe x y) (h' : PairLe y z) : PairLe x z := by
  unfold PairLe at *
  omega

instance : Std.Total PairLe := ⟨PairLe.total⟩

instance : IsTrans (ℕ × ℕ) PairLe := ⟨fun _ _ _ => PairLe.trans⟩

theorem sortedPairs (heldBy : Map ℕ ℕ) (hone : ∀ p a b : ℕ, heldBy[a]? = some p → heldBy[b]? = some p → a = b) :
    let pairs := (heldBy.toList.map (fun held => (held.2,held.1))).insertionSort PairLe
    pairs.Pairwise (fun x y => x.1 < y.1) ∧ ∀ p a, (p,a) ∈ pairs ↔ heldBy[a]? = some p := by
  have hmem : ∀ p a, (p,a) ∈ (heldBy.toList.map (fun held => (held.2,held.1))).insertionSort PairLe ↔ heldBy[a]? = some p := by
    intro p a
    rw [List.mem_insertionSort,List.mem_map,← Std.ExtTreeMap.mem_toList_iff_getElem?_eq_some]
    constructor
    · rintro ⟨⟨a',p'⟩,hp,heq⟩
      cases heq
      exact hp
    · exact fun h => ⟨_,h,rfl⟩
  refine ⟨?_,hmem⟩
  have hnodup : ((heldBy.toList.map (fun held => (held.2,held.1))).insertionSort PairLe).Nodup := by
    rw [(List.perm_insertionSort PairLe _).nodup_iff,List.nodup_map_iff]
    · exact (Std.ExtTreeMap.distinct_keys_toList (t := heldBy)).imp (fun {x y} hxy heq => hxy (by rw [heq]; exact Std.compare_self))
    · rintro ⟨a,p⟩ ⟨b,q⟩ heq
      cases heq
      rfl
  refine ((List.pairwise_insertionSort PairLe _).and hnodup).imp_of_mem ?_
  rintro ⟨p,a⟩ ⟨q,b⟩ hp hq ⟨hle,hne⟩
  obtain hlt | ⟨heq,-⟩ := hle
  · exact hlt
  · obtain rfl : p = q := heq
    exact absurd (by rw [hone p a b ((hmem _ _).mp hp) ((hmem _ _).mp hq)]) hne

theorem stableMatching_best (hp : (proposers.map Prod.fst).Nodup) (ha : (acceptors.map Prod.fst).Nodup) :
    ∃ pairs, (∃ n, ∀ fuel, n < fuel → stableMatching fuel proposers acceptors = some pairs) ∧ pairs.Pairwise (fun x y => x.1 < y.1) ∧
      (market proposers acceptors).Stable (fun p a => (p,a) ∈ pairs) ∧ (market proposers acceptors).Best (fun p a => (p,a) ∈ pairs) := by
  obtain ⟨s,hrun,hstable,hbest⟩ := (running_start (market proposers acceptors) (proposerLists proposers (acceptorRanks proposers acceptors))).loop
    (faithful hp ha) (proposers.map Prod.fst).toFinset (fun p list hlist => by
      obtain ⟨l,hmem,-⟩ := (proposerLists_get hp).mp hlist
      exact List.mem_toFinset.mpr (List.mem_map.mpr ⟨_,hmem,rfl⟩))
  obtain ⟨hsorted,hmem⟩ := sortedPairs s.heldBy (fun p a b => hstable.acceptor p a b)
  have hresult : ∃ n, ∀ fuel, n < fuel → stableMatching fuel proposers acceptors =
      some ((s.heldBy.toList.map (fun held => (held.2,held.1))).insertionSort PairLe) := by
    have hend : ∃ n, ∀ fuel, n < fuel → matchingLoop _ _ fuel _ = some s := ⟨_,hrun⟩
    obtain ⟨n,hn⟩ := hend
    refine ⟨n,fun fuel hfuel => ?_⟩
    rw [stableMatching]
    simp only [hn fuel hfuel,Option.map_some]
  refine ⟨_,hresult,hsorted,?_,?_⟩
  · simpa only [hmem] using hstable
  · simpa only [hmem] using hbest

/-- The result is the stable matching that is best for the proposers, sorted by proposer, whatever the order of the
sides. -/
theorem stableMatching_spec (hp : (proposers.map Prod.fst).Nodup) (ha : (acceptors.map Prod.fst).Nodup) :
    ∃ pairs : List (ℕ × ℕ), pairs.Pairwise (fun x y => x.1 < y.1) ∧ (market proposers acceptors).Stable (fun p a => (p,a) ∈ pairs) ∧
      (∀ μ, (market proposers acceptors).Stable μ → ∀ p b, μ p b →
        ∃ a, (p,a) ∈ pairs ∧ (a = b ∨ (market proposers acceptors).ProposerPrefers p a b)) ∧
      ∀ proposers' acceptors' : List Preferences, proposers'.Perm proposers → acceptors'.Perm acceptors →
        ∃ n, ∀ fuel, n < fuel → stableMatching fuel proposers' acceptors' = some pairs := by
  obtain ⟨pairs,-,hsorted,hstable,hbest⟩ := stableMatching_best hp ha
  refine ⟨pairs,hsorted,hstable,hbest,fun proposers' acceptors' hperm hperm' => ?_⟩
  have hmarket : market proposers' acceptors' = market proposers acceptors := by
    rw [market,market,Market.mk.injEq]
    exact ⟨funext (fun _ => listOf_perm hp hperm),funext (fun _ => listOf_perm ha hperm')⟩
  have hp' : (proposers'.map Prod.fst).Nodup := (hperm.map _).nodup_iff.mpr hp
  have ha' : (acceptors'.map Prod.fst).Nodup := (hperm'.map _).nodup_iff.mpr ha
  obtain ⟨pairs',⟨n,hrun⟩,hsorted',hstable',hbest'⟩ := stableMatching_best hp' ha'
  rw [hmarket] at hstable' hbest'
  have hkeys' : KeySorted Prod.fst pairs' := hsorted'
  obtain rfl : pairs' = pairs := hkeys'.ext hsorted (fun x => hbest'.unique hstable' hstable hbest)
  exact ⟨n,hrun⟩

/-- Lists with an unknown id and repeats. -/
def twoProposers : List Preferences := [(1,[99,10,10,11]),(2,[10])]

def twoAcceptors : List Preferences := [(10,[2,2,1,42]),(11,[1])]

example : stableMatching 9 twoProposers twoAcceptors = some [(1,11),(2,10)] := by decide +kernel

theorem two_matched :
    ∃ pairs : List (ℕ × ℕ), pairs.Pairwise (fun x y => x.1 < y.1) ∧ (market twoProposers twoAcceptors).Stable (fun p a => (p,a) ∈ pairs) ∧
      (∀ μ, (market twoProposers twoAcceptors).Stable μ → ∀ p b, μ p b →
        ∃ a, (p,a) ∈ pairs ∧ (a = b ∨ (market twoProposers twoAcceptors).ProposerPrefers p a b)) ∧
      ∀ proposers' acceptors' : List Preferences, proposers'.Perm twoProposers → acceptors'.Perm twoAcceptors →
        ∃ n, ∀ fuel, n < fuel → stableMatching fuel proposers' acceptors' = some pairs :=
  stableMatching_spec (by decide) (by decide)

end Drevo.Algorithms
