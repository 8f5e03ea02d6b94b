import Drevo.Vector.Hnsw

/-! What a search in the graph returns: elements of the layer with their distances in ascending order, and never a link that leads nowhere. -/
namespace Drevo.Vector

variable {V D α : Type*}

/-- An answer is as it should be, and a failure is not a panic. -/
def Safe (good : α → Prop) : HnswResult α → Prop
  | .ok a => good a
  | .error e => e ≠ .panic

namespace HnswIndex

variable {ix : HnswIndex V D} {query : V} {P : ℕ → Prop} {layer id ef k : ℕ}

/-- Elements with a list on the layer that leads to such elements. -/
def ClosedOn (ix : HnswIndex V D) (layer : ℕ) (P : ℕ → Prop) : Prop := ∀ i, P i → ∃ links, ix.neighborsOf i layer = .ok links ∧ ∀ j ∈ links, P j

theorem distTo_safe (query : V) (hid : id < ix.nodes.length) : Safe (fun _ => True) (ix.distTo query id) := by
  rw [distTo,List.getElem?_eq_getElem hid]
  dsimp only
  split
  · trivial
  · intro h
    cases h

theorem neighborsOf_lt {links : List ℕ} (h : ix.neighborsOf id layer = .ok links) : id < ix.nodes.length := by
  rw [neighborsOf] at h
  by_contra hlt
  rw [List.getElem?_eq_none (not_lt.mp hlt)] at h
  cases h

theorem ClosedOn.lt (h : ix.ClosedOn layer P) (hid : P id) : id < ix.nodes.length := by
  obtain ⟨links,hlinks,-⟩ := h id hid
  exact neighborsOf_lt hlinks

variable [LinearOrder D]

theorem scanNeighbors_safe (query : V) {ns : List ℕ} (best : ℕ × D × Bool) (hns : ∀ n ∈ ns, n < ix.nodes.length) :
    Safe (fun _ => True) (ix.scanNeighbors query ns best) := by
  induction ns generalizing best with
  | nil => trivial
  | cons n ns ih =>
    rw [List.forall_mem_cons] at hns
    rw [scanNeighbors]
    have hd := distTo_safe query hns.1
    split
    · rename_i e he
      rwa [he] at hd
    · exact ih _ hns.2

theorem greedyLoop_safe (h : ix.ClosedOn layer P) {current : ℕ} {dist : D} (hcurrent : P current) : Safe P (ix.greedyLoop query layer current dist) := by
  induction hn : (List.range ix.nodes.length).countP (ix.closer query dist) using Nat.strong_induction_on generalizing current dist with
  | _ n ih =>
    obtain ⟨links,hlinks,hclosed⟩ := h current hcurrent
    have hscan := scanNeighbors_safe query (current,dist,false) (fun n hn => h.lt (hclosed n hn))
    rw [greedyLoop,hlinks]
    dsimp only
    split
    · rename_i e he
      rwa [he] at hscan
    · rename_i next d improved he
      have hbest := scanNeighbors_best he
      split_ifs with himproved
      · obtain hsame | ⟨hmem,-,hdist,hlt⟩ := hbest
        · cases hsame
          cases himproved
        · exact ih _ (hn ▸ closer_lt hdist hlt) (hclosed next hmem) rfl
      · obtain hsame | ⟨-,htrue,-,-⟩ := hbest
        · cases hsame
          exact hcurrent
        · exact absurd htrue himproved

theorem greedyClosest_safe (query : V) (h : ix.ClosedOn layer P) {start : ℕ} (hstart : P start) : Safe P (ix.greedyClosest query start layer) := by
  have hd := distTo_safe query (h.lt hstart)
  rw [greedyClosest]
  split
  · rename_i e he
    rwa [he] at hd
  · exact greedyLoop_safe h hstart

/-! ## Beam search -/

/-- What a beam holds was seen on the layer, and what it keeps is in order. -/
structure Beam.Right (ix : HnswIndex V D) (query : V) (P : ℕ → Prop) (ef : ℕ) (b : Beam D) : Prop where
  seen : ∀ i ∈ b.visited, P i
  candidates : ∀ c ∈ b.candidates, (ofLex c).2 ∈ b.visited
  results : ∀ c ∈ b.results, (ofLex c).2 ∈ b.visited ∧ ix.distTo query (ofLex c).2 = .ok (ofLex c).1
  sorted : b.results.Pairwise (· ≤ ·)
  distinct : (b.results.map (fun c => (ofLex c).2)).Nodup
  few : b.results.length ≤ ef

/-- What a search on a layer returns. -/
structure Found (ix : HnswIndex V D) (query : V) (P : ℕ → Prop) (ef : ℕ) (found : List (Candidate D)) : Prop where
  known : ∀ c ∈ found, P (ofLex c).2 ∧ ix.distTo query (ofLex c).2 = .ok (ofLex c).1
  sorted : found.Pairwise (· ≤ ·)
  distinct : (found.map (fun c => (ofLex c).2)).Nodup
  few : found.length ≤ ef

variable {b b' : Beam D} {n : ℕ}

theorem Beam.Right.found (hb : Beam.Right ix query P ef b) : Found ix query P ef b.results :=
  ⟨fun c hc => ⟨hb.seen _ (hb.results c hc).1,(hb.results c hc).2⟩,hb.sorted,hb.distinct,hb.few⟩

theorem Beam.Right.keep (results : List (Candidate D)) {d : D} (hb : Beam.Right ix query P ef { b with results := results.take ef })
    (hresults : results.Pairwise (· ≤ ·)) (hdistinct : (results.map (fun c => (ofLex c).2)).Nodup)
    (hknown : ∀ c ∈ results, (ofLex c).2 ∈ b.visited ∧ ix.distTo query (ofLex c).2 = .ok (ofLex c).1)
    (hn : P n) (hnew : n ∉ b.visited) (hd : ix.distTo query n = .ok d) :
    Beam.Right ix query P ef ⟨n :: b.visited,b.candidates.orderedInsert (· ≤ ·) (toLex (d,n)),(results.orderedInsert (· ≤ ·) (toLex (d,n))).take ef⟩ := by
  have hall : ∀ c ∈ results.orderedInsert (· ≤ ·) (toLex (d,n)), (ofLex c).2 ∈ n :: b.visited ∧ ix.distTo query (ofLex c).2 = .ok (ofLex c).1 := by
    intro c hc
    obtain rfl | hc := (List.mem_orderedInsert _).mp hc
    · exact ⟨List.mem_cons_self,hd⟩
    · exact ⟨List.mem_cons_of_mem _ (hknown c hc).1,(hknown c hc).2⟩
  have hids : ((results.orderedInsert (· ≤ ·) (toLex (d,n))).map (fun c => (ofLex c).2)).Nodup := by
    rw [((List.perm_orderedInsert (· ≤ ·) (toLex (d,n)) results).map _).nodup_iff,List.map_cons,List.nodup_cons]
    refine ⟨fun hin => ?_,hdistinct⟩
    obtain ⟨c,hc,heq⟩ := List.mem_map.mp hin
    have heq : (ofLex c).2 = n := heq
    exact hnew (heq ▸ (hknown c hc).1)
  refine ⟨?_,fun c hc => ?_,fun c hc => hall c (List.mem_of_mem_take hc),?_,?_,List.length_take_le _ _⟩
  · rintro i (_ | ⟨_,hi⟩)
    · exact hn
    · exact hb.seen i hi
  · obtain rfl | hc := (List.mem_orderedInsert _).mp hc
    · exact List.mem_cons_self
    · exact List.mem_cons_of_mem _ (hb.candidates c hc)
  · exact (hresults.orderedInsert _ _).sublist (List.take_sublist _ _)
  · exact hids.sublist ((List.take_sublist _ _).map _)

theorem visitNeighbor_right (hn : P n) (hlt : n < ix.nodes.length) (hb : Beam.Right ix query P ef b) :
    Safe (Beam.Right ix query P ef) (ix.visitNeighbor query ef b n) := by
  rw [visitNeighbor]
  split_ifs with hseen
  · exact hb
  · have hd := distTo_safe query hlt
    split
    · rename_i e he
      rwa [he] at hd
    · rename_i d he
      split_ifs
      · have hfull : { b with results := b.results.take ef } = b := by rw [List.take_of_length_le hb.few]
        exact Beam.Right.keep b.results (hfull.symm ▸ hb) hb.sorted hb.distinct hb.results hn hseen he
      · refine ⟨?_,fun c hc => List.mem_cons_of_mem _ (hb.candidates c hc),fun c hc => ?_,hb.sorted,hb.distinct,hb.few⟩
        · rintro i (_ | ⟨_,hi⟩)
          · exact hn
          · exact hb.seen i hi
        · exact ⟨List.mem_cons_of_mem _ (hb.results c hc).1,(hb.results c hc).2⟩

theorem visitAll_right {ns : List ℕ} (hns : ∀ n ∈ ns, P n ∧ n < ix.nodes.length) (hb : Beam.Right ix query P ef b) :
    Safe (Beam.Right ix query P ef) (ix.visitAll query ef ns b) := by
  induction ns generalizing b with
  | nil => exact hb
  | cons n ns ih =>
    rw [List.forall_mem_cons] at hns
    have hfirst := visitNeighbor_right hns.1.1 hns.1.2 hb
    rw [visitAll]
    split
    · rename_i e he
      rwa [he] at hfirst
    · rename_i b' he
      rw [he] at hfirst
      exact ih hns.2 hfirst

theorem searchLoop_found (h : ix.ClosedOn layer P) (hb : Beam.Right ix query P ef b) : Safe (Found ix query P ef) (ix.searchLoop query ef layer b) := by
  induction hn : ix.work b using Nat.strong_induction_on generalizing b with
  | _ n ih =>
    rw [searchLoop]
    split
    · exact hb.found
    · rename_i c rest hwork
      split_ifs
      · exact hb.found
      · obtain ⟨links,hlinks,hclosed⟩ := h _ (hb.seen _ (hb.candidates c (hwork ▸ List.mem_cons_self)))
        have hrest : Beam.Right ix query P ef { b with candidates := rest } :=
          { hb with candidates := fun c hc => hb.candidates c (hwork ▸ List.mem_cons_of_mem _ hc) }
        have hall := visitAll_right (fun n hn => ⟨hclosed n hn,h.lt (hclosed n hn)⟩) hrest
        rw [hlinks]
        dsimp only
        split
        · rename_i e he
          rwa [he] at hall
        · rename_i b' he
          have hle := visitAll_work he
          rw [he] at hall
          refine ih _ ?_ hall rfl
          rw [← hn]
          unfold work at hle ⊢
          rw [hwork,List.length_cons]
          dsimp only at hle
          omega

theorem searchLayer_found (query : V) (ef : ℕ) (h : ix.ClosedOn layer P) {entry : ℕ} (hentry : P entry) : Safe (Found ix query P ef) (ix.searchLayer query [entry] ef layer) := by
  have hd := distTo_safe query (h.lt hentry)
  rw [searchLayer,seed,if_neg List.not_mem_nil]
  split
  · rename_i e he
    split at he
    · rename_i e' he'
      rw [he'] at hd
      rwa [← Except.error.inj he]
    · cases he
  · rename_i b he
    split at he
    · cases he
    · rename_i d hdist
      rw [← Except.ok.inj he]
      refine searchLoop_found h ?_
      have hstart : Beam.Right ix query P ef ⟨[],[],([] : List (Candidate D)).take ef⟩ := by
        rw [List.take_nil]
        exact ⟨nofun,nofun,nofun,.nil,.nil,Nat.zero_le _⟩
      exact Beam.Right.keep [] hstart .nil .nil nofun hentry List.not_mem_nil hdist

end HnswIndex

end Drevo.Vector
