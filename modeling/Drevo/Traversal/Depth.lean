import Drevo.Traversal.Graph

/-! What breadth-first and depth-first search return: the nodes in reach of the start, for depth-first search as
long as no node is left at the depth limit that a shorter way leads to and that leads to something new. -/
namespace Drevo.Traversal
open Lib

variable {K ε : Type*} {g : Graph K} {getNode : ℕ → Except ε (Option Node)} {edgesOf : ℕ → Direction → Except ε (List (Edge K))}
  {take : List (ℕ × ℕ) → Option ((ℕ × ℕ) × List (ℕ × ℕ))} {maxDepth startId : ℕ} {direction : Direction} {edgeKind : Option String}
  {s s' : SearchState} {f f' : Frontier ℕ} {x d : ℕ} {rest : List (ℕ × ℕ)}

/-! ## One round -/

/-- The relationships of a node add what they lead to and was not seen, each node once. -/
theorem visitEdges_spec (hserve : g.Serves getNode edgesOf) (direction : Direction) (edgeKind : Option String) (x d : ℕ)
    (edges : List (Edge K)) (hedges : ∀ e ∈ edges, e ∈ g.edges) (s : SearchState) :
    ∃ fresh : List Node, visitEdges getNode direction edgeKind x d s edges =
        .ok ⟨s.visited ∪ (fresh.map Node.id).toFinset,s.waiting ++ fresh.map (fun n => (n.id,d+1)),s.result ++ fresh⟩ ∧
      (fresh.map Node.id).Nodup ∧
      (∀ n ∈ fresh, n.id ∉ s.visited ∧ g.node n.id = some n ∧ ∃ e ∈ edges, passes edgeKind e ∧ neighborIdForEdge e x direction = n.id) ∧
      ∀ e ∈ edges, passes edgeKind e → neighborIdForEdge e x direction ∈ s.visited ∪ (fresh.map Node.id).toFinset := by
  induction edges generalizing s with
  | nil => exact ⟨[],by simp [visitEdges],List.nodup_nil,nofun,nofun⟩
  | cons e edges ih =>
    have htail : ∀ e ∈ edges, e ∈ g.edges := fun e he => hedges e (List.mem_cons_of_mem _ he)
    by_cases hpass : passes edgeKind e
    · by_cases hseen : neighborIdForEdge e x direction ∈ s.visited
      · obtain ⟨fresh,hrun,hnodup,hnew,hall⟩ := ih htail s
        refine ⟨fresh,?_,hnodup,fun n hn => ?_,fun e' he' hp => ?_⟩
        · rw [visitEdges,if_pos hpass,if_pos hseen,hrun]
        · obtain ⟨hvis,hnode,e',he',hlead⟩ := hnew n hn
          exact ⟨hvis,hnode,e',List.mem_cons_of_mem _ he',hlead⟩
        · obtain rfl | he' := List.mem_cons.mp he'
          · exact Finset.mem_union_left _ hseen
          · exact hall e' he' hp
      · obtain ⟨n,hn⟩ := Graph.neighbor_node (hedges e List.mem_cons_self) x direction
        have hid := Graph.node_id hn
        obtain ⟨fresh,hrun,hnodup,hnew,hall⟩ := ih htail
          ⟨insert n.id s.visited,s.waiting ++ [(n.id,d+1)],s.result ++ [n]⟩
        refine ⟨n::fresh,?_,?_,fun m hm => ?_,fun e' he' hp => ?_⟩
        · rw [visitEdges,if_pos hpass,if_neg hseen,hserve.node,hn]
          simp only [← hid,hrun]
          simp [Finset.insert_union]
        · rw [List.map_cons,List.nodup_cons]
          refine ⟨fun hmem => ?_,hnodup⟩
          obtain ⟨m,hm,heq⟩ := List.mem_map.mp hmem
          exact (hnew m hm).1 (heq ▸ Finset.mem_insert_self _ _)
        · obtain rfl | hm := List.mem_cons.mp hm
          · exact ⟨hid ▸ hseen,hid ▸ hn,e,List.mem_cons_self,hpass,hid.symm⟩
          · obtain ⟨hvis,hnode,e',he',hlead⟩ := hnew m hm
            exact ⟨fun h => hvis (Finset.mem_insert_of_mem h),hnode,e',List.mem_cons_of_mem _ he',hlead⟩
        · obtain rfl | he' := List.mem_cons.mp he'
          · simp [hid]
          · have hmem := hall e' he' hp
            simp only [Finset.mem_union,Finset.mem_insert,List.map_cons,List.toFinset_cons] at hmem ⊢
            tauto
    · obtain ⟨fresh,hrun,hnodup,hnew,hall⟩ := ih htail s
      refine ⟨fresh,?_,hnodup,fun n hn => ?_,fun e' he' hp => ?_⟩
      · rw [visitEdges,if_neg hpass,hrun]
      · obtain ⟨hvis,hnode,e',he',hlead⟩ := hnew n hn
        exact ⟨hvis,hnode,e',List.mem_cons_of_mem _ he',hlead⟩
      · obtain rfl | he' := List.mem_cons.mp he'
        · exact absurd hp hpass
        · exact hall e' he' hp

/-- The state of a search shows what was found and what waits. -/
structure Shows (g : Graph K) (startId : ℕ) (s : SearchState) (f : Frontier ℕ) : Prop where
  found : f.found = startId :: s.result.map Node.id
  visited : ∀ x, x ∈ s.visited ↔ x ∈ f.found
  known : ∀ n ∈ s.result, g.node n.id = some n
  waiting : f.waiting = s.waiting

theorem shows_start : Shows g startId (.start startId) (.start startId) where
  found := rfl
  visited x := by simp [SearchState.start,Frontier.start]
  known := nofun
  waiting := rfl

/-- What is taken is one of what waits, and the rest is left. -/
structure Taking (take : List (ℕ × ℕ) → Option ((ℕ × ℕ) × List (ℕ × ℕ))) : Prop where
  empty : ∀ waiting, take waiting = none → waiting = []
  one : ∀ waiting p rest, take waiting = some (p,rest) → waiting.Perm (p::rest)

theorem taking_popFront : Taking popFront where
  empty waiting h := by
    cases waiting with
    | nil => rfl
    | cons => cases h
  one waiting p rest h := by
    cases waiting with
    | nil => cases h
    | cons =>
      cases h
      exact .refl _

theorem taking_pop : Taking pop where
  empty waiting h := by simpa [pop] using h
  one waiting p rest h := by
    obtain ⟨q,hq,heq⟩ := Option.map_eq_some_iff.mp h
    cases heq
    obtain ⟨front,rfl⟩ := List.getLast?_eq_some_iff.mp hq
    simp

theorem Taking.takes (htake : Taking take) (hshow : Shows g startId s f) (h : take s.waiting = some ((x,d),rest)) : f.Takes x d rest := by
  intro p
  rw [hshow.waiting,(htake.one _ _ _ h).mem_iff,List.mem_cons]

theorem next_follow (hserve : g.Serves getNode edgesOf) (hshow : Shows g startId s f) (h : take s.waiting = some ((x,d),rest)) :
    ∃ s' f', s.next getNode edgesOf take maxDepth direction edgeKind = some (.ok s') ∧ Shows g startId s' f' ∧
      f.Follow (g.Leads direction edgeKind) maxDepth x d rest f' := by
  unfold SearchState.next
  rw [h]
  by_cases hd : maxDepth ≤ d
  · refine ⟨{ s with waiting := rest },⟨f.found,rest⟩,by simp [hd],⟨hshow.found,hshow.visited,hshow.known,rfl⟩,.cut hd⟩
  · obtain ⟨edges,hedges,hmem⟩ := hserve.edges x direction
    obtain ⟨fresh,hrun,hnodup,hnew,hall⟩ := visitEdges_spec hserve direction edgeKind x d edges (fun e he => ((hmem e).mp he).1)
      { s with waiting := rest }
    refine ⟨⟨s.visited ∪ (fresh.map Node.id).toFinset,rest ++ fresh.map (fun n => (n.id,d+1)),s.result ++ fresh⟩,
      ⟨f.found ++ fresh.map Node.id,rest ++ (fresh.map Node.id).map (fun y => (y,d+1))⟩,?_,⟨?_,fun y => ?_,fun n hn => ?_,?_⟩,
      .expand (not_le.mp hd) hnodup (fun y hy => ?_) (fun y hy => ?_)⟩
    · simp only [if_neg hd,hedges,hrun]
    · simp [hshow.found]
    · simp [hshow.visited]
    · obtain hn | hn := List.mem_append.mp hn
      · exact hshow.known n hn
      · exact (hnew n hn).2.1
    · simp [Function.comp_def]
    · obtain ⟨n,hn,rfl⟩ := List.mem_map.mp hy
      obtain ⟨hvis,-,e,he,hpass,hlead⟩ := hnew n hn
      exact ⟨fun hf => hvis ((hshow.visited _).mpr hf),e,((hmem e).mp he).1,((hmem e).mp he).2,hpass,hlead⟩
    · obtain ⟨e,he,hhas,hpass,rfl⟩ := hy
      have hvis := hall e ((hmem e).mpr ⟨he,hhas⟩) hpass
      simpa [hshow.visited] using hvis

/-! ## Whole searches -/

/-- The states that the rounds of a search come to. -/
inductive Rounds (getNode : ℕ → Except ε (Option Node)) (edgesOf : ℕ → Direction → Except ε (List (Edge K)))
    (take : List (ℕ × ℕ) → Option ((ℕ × ℕ) × List (ℕ × ℕ))) (maxDepth : ℕ) (direction : Direction) (edgeKind : Option String)
    (startId : ℕ) : SearchState → Prop
  | start : Rounds getNode edgesOf take maxDepth direction edgeKind startId (.start startId)
  | next {s s' : SearchState} (h : Rounds getNode edgesOf take maxDepth direction edgeKind startId s)
      (hnext : s.next getNode edgesOf take maxDepth direction edgeKind = some (.ok s')) :
      Rounds getNode edgesOf take maxDepth direction edgeKind startId s'

/-- The next round leaves a node at the depth limit that a shorter way leads to, while it leads to a node that is
not seen. -/
def CutsOff (g : Graph K) (take : List (ℕ × ℕ) → Option ((ℕ × ℕ) × List (ℕ × ℕ))) (maxDepth : ℕ) (direction : Direction)
    (edgeKind : Option String) (startId : ℕ) (s : SearchState) : Prop :=
  ∃ x d rest, take s.waiting = some ((x,d),rest) ∧ maxDepth ≤ d ∧ (∃ n, n < maxDepth ∧ Hops (g.Leads direction edgeKind) startId n x) ∧
    ∃ y, g.Leads direction edgeKind x y ∧ y ∉ s.visited

/-- How many rounds are still to come at most: two for each node that is not found, and one for each that waits. -/
def roundsLeft (g : Graph K) (f : Frontier ℕ) : ℕ := 2*(g.nodes.length+1-f.found.length) + f.waiting.length

theorem found_le (hshow : Shows g startId s f) (hexp : Explored (g.Leads direction edgeKind) startId maxDepth f) :
    f.found.length ≤ g.nodes.length+1 := by
  have hsub : f.found ⊆ startId :: g.nodes.map Node.id := by
    intro x hx
    rw [hshow.found] at hx
    obtain rfl | hx := List.mem_cons.mp hx
    · exact List.mem_cons_self
    · obtain ⟨n,hn,rfl⟩ := List.mem_map.mp hx
      exact List.mem_cons_of_mem _ (Graph.node_isSome.mp (by rw [hshow.known n hn]; rfl))
  simpa using (hexp.nodup.subperm hsub).length_le

theorem roundsLeft_follow (htake : Taking take) (hshow : Shows g startId s f) (h : take s.waiting = some ((x,d),rest))
    (hle : f'.found.length ≤ g.nodes.length+1) (hstep : f.Follow (g.Leads direction edgeKind) maxDepth x d rest f') :
    roundsLeft g f' < roundsLeft g f := by
  have hlen : f.waiting.length = rest.length+1 := by
    rw [hshow.waiting,(htake.one _ _ _ h).length_eq,List.length_cons]
  unfold roundsLeft
  cases hstep with
  | cut => simp only [hlen]; omega
  | expand =>
    simp only [List.length_append,List.length_map] at hle ⊢
    omega

/-- A search whose rounds keep a property under which no node is cut off returns what is in reach. -/
theorem searchLoop_explored (hserve : g.Serves getNode edgesOf) (htake : Taking take) {P : SearchState → Frontier ℕ → Prop}
    (hkeep : ∀ {s s' f f' x d rest}, P s f → Shows g startId s f → Explored (g.Leads direction edgeKind) startId maxDepth f' →
      take s.waiting = some ((x,d),rest) → s.next getNode edgesOf take maxDepth direction edgeKind = some (.ok s') →
      f.Follow (g.Leads direction edgeKind) maxDepth x d rest f' → P s' f')
    (hcut : ∀ {s f x d rest}, P s f → Shows g startId s f → take s.waiting = some ((x,d),rest) → maxDepth ≤ d →
      (∀ y, g.Leads direction edgeKind x y → y ∈ f.found) ∨ ∀ n, Hops (g.Leads direction edgeKind) startId n x → maxDepth ≤ n)
    (hP : P s f) (hshow : Shows g startId s f) (hexp : Explored (g.Leads direction edgeKind) startId maxDepth f) {fuel : ℕ}
    (hfuel : roundsLeft g f < fuel) :
    ∃ found : List Node, searchLoop getNode edgesOf take maxDepth direction edgeKind fuel s = some (.ok found) ∧
      (∀ n, n ∈ found ↔ g.node n.id = some n ∧ n.id ≠ startId ∧ n.id ∈ Ball (g.Leads direction edgeKind) startId maxDepth) ∧
      found.Nodup := by
  induction fuel generalizing s f with
  | zero => omega
  | succ fuel ih =>
    rw [searchLoop]
    cases h : take s.waiting with
    | none =>
      have hdone : s.waiting = [] := htake.empty _ h
      have hnext : s.next getNode edgesOf take maxDepth direction edgeKind = none := by rw [SearchState.next,h]
      rw [hnext]
      have hids := hexp.nodup
      rw [hshow.found,List.nodup_cons] at hids
      refine ⟨s.result,rfl,fun n => ?_,hids.2.of_map⟩
      have hball := hexp.mem_found (hshow.waiting.trans hdone) (x := n.id)
      rw [hshow.found,List.mem_cons] at hball
      constructor
      · intro hn
        refine ⟨hshow.known n hn,fun heq => hids.1 (heq ▸ List.mem_map_of_mem hn),?_⟩
        exact hball.mp (.inr (List.mem_map_of_mem hn))
      · rintro ⟨hnode,hne,hn⟩
        obtain heq | hn := hball.mpr hn
        · exact absurd heq hne
        · obtain ⟨m,hm,heq⟩ := List.mem_map.mp hn
          have hm' := hshow.known m hm
          rw [heq,hnode] at hm'
          cases hm'
          exact hm
    | some taken =>
      obtain ⟨⟨x,d⟩,rest⟩ := taken
      obtain ⟨s',f',hnext,hshow',hstep⟩ := next_follow hserve hshow h
      rw [hnext]
      have hexp' := hexp.follow (htake.takes hshow h) hstep (hcut hP hshow h)
      have hleft := roundsLeft_follow htake hshow h (found_le hshow' hexp') hstep
      exact ih (hkeep hP hshow hexp' h hnext hstep) hshow' hexp' (by omega)

theorem search_explored (hserve : g.Serves getNode edgesOf) (htake : Taking take) {P : SearchState → Frontier ℕ → Prop}
    (hkeep : ∀ {s s' f f' x d rest}, P s f → Shows g startId s f → Explored (g.Leads direction edgeKind) startId maxDepth f' →
      take s.waiting = some ((x,d),rest) → s.next getNode edgesOf take maxDepth direction edgeKind = some (.ok s') →
      f.Follow (g.Leads direction edgeKind) maxDepth x d rest f' → P s' f')
    (hcut : ∀ {s f x d rest}, P s f → Shows g startId s f → take s.waiting = some ((x,d),rest) → maxDepth ≤ d →
      (∀ y, g.Leads direction edgeKind x y → y ∈ f.found) ∨ ∀ n, Hops (g.Leads direction edgeKind) startId n x → maxDepth ≤ n)
    (hP : P (.start startId) (.start startId)) {fuel : ℕ} (hfuel : 2*g.nodes.length+1 < fuel) :
    ∃ found : List Node, search getNode edgesOf take maxDepth direction edgeKind fuel startId = some (.ok found) ∧
      (∀ n, n ∈ found ↔ g.node n.id = some n ∧ n.id ≠ startId ∧ n.id ∈ Ball (g.Leads direction edgeKind) startId maxDepth) ∧
      found.Nodup := by
  unfold search
  by_cases hzero : maxDepth = 0
  · refine ⟨[],if_pos hzero,fun n => ⟨nofun,?_⟩,List.nodup_nil⟩
    rintro ⟨-,hne,k,hk,hn⟩
    obtain rfl : k = 0 := by omega
    cases hn
    exact absurd rfl hne
  · rw [if_neg hzero]
    refine searchLoop_explored hserve htake hkeep hcut hP shows_start explored_start ?_
    simp only [roundsLeft,Frontier.start,List.length_singleton]
    omega

theorem bfs_ball (hserve : g.Serves getNode edgesOf) (maxDepth : ℕ) (direction : Direction) (edgeKind : Option String) (startId : ℕ) {fuel : ℕ}
    (hfuel : 2*g.nodes.length+1 < fuel) :
    ∃ found : List Node, bfs getNode edgesOf maxDepth direction edgeKind fuel startId = some (.ok found) ∧
      (∀ n, n ∈ found ↔ g.node n.id = some n ∧ n.id ≠ startId ∧ n.id ∈ Ball (g.Leads direction edgeKind) startId maxDepth) ∧
      found.Nodup := by
  have hfirst : ∀ {s : SearchState} {f : Frontier ℕ} {x d rest}, Shows g startId s f → popFront s.waiting = some ((x,d),rest) →
      f.waiting = (x,d)::rest := by
    intro s f x d rest hshow h
    rw [hshow.waiting]
    cases hw : s.waiting with
    | nil =>
      rw [hw] at h
      cases h
    | cons =>
      rw [hw] at h
      cases h
      rfl
  refine search_explored hserve taking_popFront (P := fun _ f => Layered (g.Leads direction edgeKind) startId f) ?_ ?_ layered_start hfuel
  · intro s s' f f' x d rest hlayer hshow hexp' h _ hstep
    exact hlayer.follow hexp' (hfirst hshow h) hstep
  · intro s f x d rest hlayer hshow h hd
    exact .inr (hlayer.no_early_cut (hfirst hshow h) hd)

theorem dfs_ball (hserve : g.Serves getNode edgesOf)
    (hrounds : ∀ s, Rounds getNode edgesOf pop maxDepth direction edgeKind startId s → ¬ CutsOff g pop maxDepth direction edgeKind startId s)
    {fuel : ℕ} (hfuel : 2*g.nodes.length+1 < fuel) :
    ∃ found : List Node, dfs getNode edgesOf maxDepth direction edgeKind fuel startId = some (.ok found) ∧
      (∀ n, n ∈ found ↔ g.node n.id = some n ∧ n.id ≠ startId ∧ n.id ∈ Ball (g.Leads direction edgeKind) startId maxDepth) ∧
      found.Nodup := by
  refine search_explored hserve taking_pop (P := fun s _ => Rounds getNode edgesOf pop maxDepth direction edgeKind startId s) ?_ ?_
    .start hfuel
  · intro s s' f f' x d rest hround _ _ _ hnext _
    exact hround.next hnext
  · intro s f x d rest hround hshow h hd
    by_contra hbad
    push Not at hbad
    obtain ⟨⟨y,hxy,hy⟩,n,hn,hlt⟩ := hbad
    exact hrounds s hround ⟨x,d,rest,h,hd,⟨n,hlt,hn⟩,y,hxy,fun hvis => hy ((hshow.visited y).mp hvis)⟩

/-- Two nodes, the first related to the second. -/
def pair : Graph ℤ where
  nodes := [plain 1,plain 2]
  edges := [⟨1,1,2,"ROAD",1⟩]
  whole := by decide

theorem pair_rounds {s : SearchState} (h : Rounds (ε := Unit) pair.getNode pair.edgesOf pop 1 .outgoing none 1 s) :
    s = .start 1 ∨ s = ⟨insert 2 {1},[(2,1)],[plain 2]⟩ ∨ s = ⟨insert 2 {1},[],[plain 2]⟩ := by
  induction h with
  | start => exact .inl rfl
  | next _ hnext ih =>
    obtain rfl | rfl | rfl := ih
    · cases hnext
      exact .inr (.inl rfl)
    · cases hnext
      exact .inr (.inr rfl)
    · cases hnext

/-- Node 5 is first found on the long way 1, 3, 4, 5, although 1, 2, 5 is shorter. -/
def detour : Graph ℤ where
  nodes := [plain 1,plain 2,plain 3,plain 4,plain 5,plain 6]
  edges := [⟨1,1,2,"ROAD",1⟩,⟨2,1,3,"ROAD",1⟩,⟨3,3,4,"ROAD",1⟩,⟨4,4,5,"ROAD",1⟩,⟨5,2,5,"ROAD",1⟩,⟨6,5,6,"ROAD",1⟩]
  whole := by decide

end Drevo.Traversal
