import Drevo.Lib.Register
import Drevo.Core.Engine

/-! Last-writer-wins registers, maps and sets. Merging is a join, and however replicas write and
merge, each key ends with the value of its greatest stamp. -/
namespace Drevo
open Lib

structure LwwRegister (T : Type) where
  value : T
  stamp : Stamp
  deriving DecidableEq

namespace LwwRegister
variable {T : Type}

/-- A write that is newer than the value replaces it. The flag says whether it did. -/
def set (r : LwwRegister T) (value : T) (stamp : Stamp) : LwwRegister T × Bool :=
  if r.stamp < stamp then (⟨value,stamp⟩,true) else (r,false)

def merge (r other : LwwRegister T) : LwwRegister T × Bool :=
  if r.stamp < other.stamp then (⟨other.value,other.stamp⟩,true) else (r,false)

end LwwRegister

abbrev Entries (K V : Type) [Ord K] := Map K (LwwRegister V)

namespace Entries
variable {K V : Type} [Ord K] [Std.TransOrd K] [Std.LawfulEqOrd K] [DecidableEq K]

def write (m : Entries K V) (key : K) (value : V) (stamp : Stamp) : Entries K V × Bool :=
  match m[key]? with
  | some reg => (m.insert key (reg.set value stamp).1,(reg.set value stamp).2)
  | none => (m.insert key ⟨value,stamp⟩,true)

/-- One entry of the other side. -/
def mergeOne (acc : Entries K V × Bool) (p : K × LwwRegister V) : Entries K V × Bool :=
  match acc.1[p.1]? with
  | some reg => (acc.1.insert p.1 (reg.merge p.2).1,acc.2 || (reg.merge p.2).2)
  | none => (acc.1.insert p.1 p.2,true)

def merge (m other : Entries K V) : Entries K V × Bool := other.toList.foldl mergeOne (m,false)

end Entries

structure LwwMap (K V : Type) [Ord K] where
  entries : Entries K V

namespace LwwMap
variable {K V : Type} [Ord K] [Std.TransOrd K] [Std.LawfulEqOrd K] [DecidableEq K]

def new : LwwMap K V := ⟨∅⟩

def set (m : LwwMap K V) (key : K) (value : V) (stamp : Stamp) : LwwMap K V × Bool :=
  (⟨(m.entries.write key value stamp).1⟩,(m.entries.write key value stamp).2)

def register (m : LwwMap K V) (key : K) : Option (LwwRegister V) := m.entries[key]?

def get (m : LwwMap K V) (key : K) : Option V := (m.register key).map LwwRegister.value

def merge (m other : LwwMap K V) : LwwMap K V × Bool :=
  (⟨(m.entries.merge other.entries).1⟩,(m.entries.merge other.entries).2)

end LwwMap

/-- Elements with a register each that says whether they are in; a removed one stays as a tombstone. -/
structure LwwSet (T : Type) [Ord T] where
  members : Entries T Bool

namespace LwwSet
variable {T : Type} [Ord T] [Std.TransOrd T] [Std.LawfulEqOrd T] [DecidableEq T]

def new : LwwSet T := ⟨∅⟩

def write (s : LwwSet T) (elem : T) (present : Bool) (stamp : Stamp) : LwwSet T × Bool :=
  (⟨(s.members.write elem present stamp).1⟩,(s.members.write elem present stamp).2)

def add (s : LwwSet T) (elem : T) (stamp : Stamp) : LwwSet T × Bool := s.write elem true stamp

def remove (s : LwwSet T) (elem : T) (stamp : Stamp) : LwwSet T × Bool := s.write elem false stamp

def contains (s : LwwSet T) (elem : T) : Bool := (s.members[elem]?).any LwwRegister.value

def merge (s other : LwwSet T) : LwwSet T × Bool :=
  (⟨(s.members.merge other.members).1⟩,(s.members.merge other.members).2)

end LwwSet

/-! ## Replicas -/

/-- A replica writes, or takes in what another has. -/
inductive MapEvent (K V : Type) where
  | set (replica : ℕ) (key : K) (value : V) (stamp : Stamp)
  | merge (replica other : ℕ)

inductive SetEvent (T : Type) where
  | add (replica : ℕ) (elem : T) (stamp : Stamp)
  | remove (replica : ℕ) (elem : T) (stamp : Stamp)
  | merge (replica other : ℕ)

namespace MapEvent
variable {K V : Type} [Ord K] [Std.TransOrd K] [Std.LawfulEqOrd K] [DecidableEq K]

def apply (maps : ℕ → LwwMap K V) : MapEvent K V → ℕ → LwwMap K V
  | .set r key value stamp => Function.update maps r ((maps r).set key value stamp).1
  | .merge r other => Function.update maps r ((maps r).merge (maps other)).1

def run (events : List (MapEvent K V)) : ℕ → LwwMap K V := events.foldl apply (fun _ => .new)

def record (seen : ℕ → List (Write K Stamp V)) : MapEvent K V → ℕ → List (Write K Stamp V)
  | .set r key value stamp => Function.update seen r (seen r ++ [⟨key,stamp,value⟩])
  | .merge r other => Function.update seen r (seen r ++ seen other)

def seen (events : List (MapEvent K V)) : ℕ → List (Write K Stamp V) := events.foldl record (fun _ => [])

end MapEvent

namespace SetEvent
variable {T : Type} [Ord T] [Std.TransOrd T] [Std.LawfulEqOrd T] [DecidableEq T]

def apply (sets : ℕ → LwwSet T) : SetEvent T → ℕ → LwwSet T
  | .add r elem stamp => Function.update sets r ((sets r).add elem stamp).1
  | .remove r elem stamp => Function.update sets r ((sets r).remove elem stamp).1
  | .merge r other => Function.update sets r ((sets r).merge (sets other)).1

def run (events : List (SetEvent T)) : ℕ → LwwSet T := events.foldl apply (fun _ => .new)

/-- A set's event as the event of a map to booleans. -/
def toMap : SetEvent T → MapEvent T Bool
  | .add r elem stamp => .set r elem true stamp
  | .remove r elem stamp => .set r elem false stamp
  | .merge r other => .merge r other

def seen (events : List (SetEvent T)) : ℕ → List (Write T Stamp Bool) := MapEvent.seen (events.map toMap)

end SetEvent

/-! ## Merging is a join -/

namespace LwwRegister
variable {T : Type}

/-- Two registers with one stamp carry one value. -/
def Agrees (x y : LwwRegister T) : Prop := x.stamp = y.stamp → x.value = y.value

theorem merge_stamp (x y : LwwRegister T) : (x.merge y).1.stamp = max x.stamp y.stamp := by
  unfold merge
  split_ifs with h
  · exact (max_eq_right h.le).symm
  · exact (max_eq_left (not_lt.mp h)).symm

theorem merge_comm {x y : LwwRegister T} (h : x.Agrees y) : (x.merge y).1 = (y.merge x).1 := by
  unfold merge
  split_ifs with hlt hgt hgt
  · exact absurd (hlt.trans hgt) (lt_irrefl _)
  · rfl
  · rfl
  · have hs : x.stamp = y.stamp := le_antisymm (not_lt.mp hgt) (not_lt.mp hlt)
    cases x
    cases y
    obtain rfl := hs
    obtain rfl := h rfl
    rfl

theorem merge_assoc (x y z : LwwRegister T) : ((x.merge y).1.merge z).1 = (x.merge (y.merge z).1).1 := by
  unfold merge
  by_cases hxy : x.stamp < y.stamp
  · by_cases hyz : y.stamp < z.stamp
    · simp [hxy,hyz,hxy.trans hyz]
    · simp [hxy,hyz]
  · by_cases hyz : y.stamp < z.stamp
    · simp [hxy,hyz]
    · have hxz : ¬ x.stamp < z.stamp := fun h => hxy (lt_of_lt_of_le h (not_lt.mp hyz))
      simp [hxy,hyz,hxz]

theorem merge_self (x : LwwRegister T) : (x.merge x).1 = x := by
  unfold merge
  rw [if_neg (lt_irrefl _)]

end LwwRegister

namespace Entries
variable {K V : Type} [Ord K] [Std.TransOrd K] [Std.LawfulEqOrd K] [DecidableEq K]

/-- What a key has after a merge. -/
def join : Option (LwwRegister V) → Option (LwwRegister V) → Option (LwwRegister V)
  | some x, some y => some (x.merge y).1
  | some x, none => some x
  | none, y => y

theorem mergeOne_get (acc : Entries K V × Bool) (p : K × LwwRegister V) (k : K) :
    (mergeOne acc p).1[k]? = if p.1 = k then join acc.1[k]? (some p.2) else acc.1[k]? := by
  unfold mergeOne
  split
  · next reg hreg =>
    rw [Map.get_insert]
    split_ifs with hk
    · rw [← hk,hreg]
      rfl
    · rfl
  · next hnone =>
    rw [Map.get_insert]
    split_ifs with hk
    · rw [← hk,hnone]
      rfl
    · rfl

theorem foldl_mergeOne_get {l : List (K × LwwRegister V)} (hl : l.Pairwise (fun a b => a.1 ≠ b.1)) (k : K) :
    ∀ acc : Entries K V × Bool, (∀ r, (k,r) ∈ l → (l.foldl mergeOne acc).1[k]? = join acc.1[k]? (some r)) ∧
      ((∀ r, (k,r) ∉ l) → (l.foldl mergeOne acc).1[k]? = acc.1[k]?) := by
  induction l with
  | nil => exact fun acc => ⟨fun r hr => absurd hr List.not_mem_nil,fun _ => rfl⟩
  | cons p l ih =>
    intro acc
    obtain ⟨hp,hl⟩ := List.pairwise_cons.mp hl
    obtain ⟨hin,hout⟩ := ih hl (mergeOne acc p)
    refine ⟨?_,?_⟩
    · intro r hr
      obtain rfl | hr := List.mem_cons.mp hr
      · refine (hout fun r' hr' => hp (k,r') hr' rfl).trans ?_
        rw [mergeOne_get,if_pos rfl]
      · refine (hin r hr).trans ?_
        rw [mergeOne_get,if_neg (hp (k,r) hr)]
    · intro hno
      refine (hout fun r hr => hno r (List.mem_cons_of_mem _ hr)).trans ?_
      rw [mergeOne_get,if_neg]
      rintro rfl
      exact hno p.2 List.mem_cons_self

theorem merge_get (m other : Entries K V) (k : K) : (m.merge other).1[k]? = join m[k]? other[k]? := by
  have hkeys : other.toList.Pairwise (fun a b => a.1 ≠ b.1) := by
    refine Std.ExtTreeMap.distinct_keys_toList.imp ?_
    intro a b hne heq
    exact hne (by rw [heq]; exact Std.compare_self)
  obtain ⟨hin,hout⟩ := foldl_mergeOne_get hkeys k (m,false)
  unfold merge
  cases hk : other[k]? with
  | some r => exact hin r (Std.ExtTreeMap.mem_toList_iff_getElem?_eq_some.mpr hk)
  | none =>
    have hno : ∀ r, (k,r) ∉ other.toList := by
      intro r hr
      rw [Std.ExtTreeMap.mem_toList_iff_getElem?_eq_some.mp hr] at hk
      cases hk
    rw [hout hno]
    cases m[k]? <;> rfl

theorem write_get (m : Entries K V) (key : K) (value : V) (stamp : Stamp) (k : K) :
    (m.write key value stamp).1[k]? = if key = k then join m[k]? (some ⟨value,stamp⟩) else m[k]? := by
  unfold write
  split
  · next reg hreg =>
    rw [Map.get_insert]
    split_ifs with hk
    · rw [← hk,hreg]
      rfl
    · rfl
  · next hnone =>
    rw [Map.get_insert]
    split_ifs with hk
    · rw [← hk,hnone]
      rfl
    · rfl

/-- Registers of one key with one stamp carry one value. -/
def Agrees (m other : Entries K V) : Prop :=
  ∀ (k : K) (x y : LwwRegister V), m[k]? = some x → other[k]? = some y → x.Agrees y

theorem merge_comm {m other : Entries K V} (h : m.Agrees other) : (m.merge other).1 = (other.merge m).1 := by
  apply Map.ext
  intro k
  rw [merge_get,merge_get]
  cases hx : m[k]? with
  | none => cases other[k]? <;> rfl
  | some x => cases hy : other[k]? with
    | none => rfl
    | some y => exact congrArg some (LwwRegister.merge_comm (h k x y hx hy))

theorem merge_assoc (a b d : Entries K V) : ((a.merge b).1.merge d).1 = (a.merge (b.merge d).1).1 := by
  apply Map.ext
  intro k
  rw [merge_get,merge_get,merge_get,merge_get]
  cases a[k]? with
  | none => rfl
  | some x => cases b[k]? with
    | none => cases d[k]? <;> rfl
    | some y => cases d[k]? with
      | none => rfl
      | some z => exact congrArg some (LwwRegister.merge_assoc x y z)

theorem merge_self (m : Entries K V) : (m.merge m).1 = m := by
  apply Map.ext
  intro k
  rw [merge_get]
  cases m[k]? with
  | none => rfl
  | some x => exact congrArg some (LwwRegister.merge_self x)

end Entries

/-! ## What a replica has seen -/

namespace LwwMap
variable {K V : Type} [Ord K] [Std.TransOrd K] [Std.LawfulEqOrd K] [DecidableEq K]

/-- The register is one of the writes of the key, and none has a greater stamp. -/
def Latest (ws : List (Write K Stamp V)) (k : K) : Option (LwwRegister V) → Prop
  | none => ∀ w ∈ ws, w.key ≠ k
  | some r => ⟨k,r.stamp,r.value⟩ ∈ ws ∧ ∀ w ∈ ws, w.key = k → w.stamp ≤ r.stamp

omit [Ord K] [Std.TransOrd K] [Std.LawfulEqOrd K] [DecidableEq K] in
/-- The latest of two lists of writes is the join of the latest of each. -/
theorem Latest.join {ws vs : List (Write K Stamp V)} {k : K} {x y : Option (LwwRegister V)} (hx : Latest ws k x)
    (hy : Latest vs k y) : Latest (ws ++ vs) k (Entries.join x y) := by
  cases x with
  | none => cases y with
    | none =>
      intro w hw
      obtain hw | hw := List.mem_append.mp hw
      · exact hx w hw
      · exact hy w hw
    | some y =>
      refine ⟨List.mem_append_right _ hy.1,?_⟩
      intro w hw hk
      obtain hw | hw := List.mem_append.mp hw
      · exact absurd hk (hx w hw)
      · exact hy.2 w hw hk
  | some x => cases y with
    | none =>
      refine ⟨List.mem_append_left _ hx.1,?_⟩
      intro w hw hk
      obtain hw | hw := List.mem_append.mp hw
      · exact hx.2 w hw hk
      · exact absurd hk (hy w hw)
    | some y =>
      refine ⟨?_,?_⟩
      · show _ ∈ ws ++ vs
        unfold LwwRegister.merge
        split_ifs
        · exact List.mem_append_right _ hy.1
        · exact List.mem_append_left _ hx.1
      · intro w hw hk
        show w.stamp ≤ (x.merge y).1.stamp
        rw [LwwRegister.merge_stamp]
        obtain hw | hw := List.mem_append.mp hw
        · exact (hx.2 w hw hk).trans (le_max_left ..)
        · exact (hy.2 w hw hk).trans (le_max_right ..)

theorem set_register (m : LwwMap K V) (key : K) (value : V) (stamp : Stamp) (k : K) :
    (m.set key value stamp).1.register k = if key = k then Entries.join (m.register k) (some ⟨value,stamp⟩) else m.register k :=
  Entries.write_get ..

theorem merge_register (m other : LwwMap K V) (k : K) :
    (m.merge other).1.register k = Entries.join (m.register k) (other.register k) :=
  Entries.merge_get ..

end LwwMap

namespace MapEvent
variable {K V : Type} [Ord K] [Std.TransOrd K] [Std.LawfulEqOrd K] [DecidableEq K]
open LwwMap

theorem apply_latest {maps : ℕ → LwwMap K V} {seen : ℕ → List (Write K Stamp V)}
    (h : ∀ r k, Latest (seen r) k ((maps r).register k)) (e : MapEvent K V) (r : ℕ) (k : K) :
    Latest (record seen e r) k ((apply maps e r).register k) := by
  cases e with
  | set replica key value stamp =>
    show Latest (Function.update seen replica _ r) k ((Function.update maps replica _ r).register k)
    rw [Function.update_apply,Function.update_apply]
    split_ifs with hr
    · rw [set_register]
      split_ifs with hk
      · have hone : Latest [(⟨key,stamp,value⟩ : Write K Stamp V)] k (some ⟨value,stamp⟩) := by
          refine ⟨by rw [hk]; exact List.mem_singleton_self _,?_⟩
          intro w hw _
          rw [List.mem_singleton.mp hw]
        exact (h replica k).join hone
      · have hnone : Latest [(⟨key,stamp,value⟩ : Write K Stamp V)] k none := by
          intro w hw
          rw [List.mem_singleton.mp hw]
          exact hk
        have hjoin := (h replica k).join hnone
        cases hreg : (maps replica).register k with
        | none =>
          rw [hreg] at hjoin
          exact hjoin
        | some x =>
          rw [hreg] at hjoin
          exact hjoin
    · exact h r k
  | merge replica other =>
    show Latest (Function.update seen replica _ r) k ((Function.update maps replica _ r).register k)
    rw [Function.update_apply,Function.update_apply]
    split_ifs with hr
    · rw [merge_register]
      exact (h replica k).join (h other k)
    · exact h r k

theorem foldl_latest (events : List (MapEvent K V)) : ∀ {maps : ℕ → LwwMap K V} {seen : ℕ → List (Write K Stamp V)},
    (∀ r k, Latest (seen r) k ((maps r).register k)) →
    ∀ r k, Latest (events.foldl record seen r) k ((events.foldl apply maps r).register k) := by
  induction events with
  | nil => exact fun h => h
  | cons e events ih => exact fun h => ih (apply_latest h e)

theorem run_latest (events : List (MapEvent K V)) (r : ℕ) (k : K) : Latest (seen events r) k ((run events r).register k) := by
  refine foldl_latest events ?_ r k
  intro r k
  have hnone : (LwwMap.new : LwwMap K V).register k = none := by
    show (∅ : Entries K V)[k]? = none
    simp
  rw [hnone]
  exact fun w hw => absurd hw List.not_mem_nil

theorem run_get {events : List (MapEvent K V)} {r : ℕ} (hd : Registers.Distinct (seen events r)) {w : Write K Stamp V}
    (hw : w ∈ seen events r) (hmax : ∀ v ∈ seen events r, v.key = w.key → v.stamp ≤ w.stamp) :
    (run events r).register w.key = some ⟨w.value,w.stamp⟩ := by
  have hlatest := run_latest events r w.key
  cases hreg : (run events r).register w.key with
  | none =>
    rw [hreg] at hlatest
    exact absurd rfl (hlatest w hw)
  | some x =>
    rw [hreg] at hlatest
    have hstamp : x.stamp = w.stamp := le_antisymm (hmax _ hlatest.1 rfl) (hlatest.2 w hw rfl)
    have hvalue : x.value = w.value := hd _ hlatest.1 w hw rfl hstamp
    cases x
    obtain rfl := hstamp
    obtain rfl := hvalue
    rfl

theorem run_converges {events events' : List (MapEvent K V)} {r r' : ℕ} (hd : Registers.Distinct (seen events r))
    (hsame : ∀ w, w ∈ seen events r ↔ w ∈ seen events' r') : run events r = run events' r' := by
  have hd' : Registers.Distinct (seen events' r') :=
    fun w hw v hv => hd w ((hsame w).mpr hw) v ((hsame v).mpr hv)
  have hentries : (run events r).entries = (run events' r').entries := by
    apply Map.ext
    intro k
    show (run events r).register k = (run events' r').register k
    have hlatest := run_latest events r k
    cases hreg : (run events r).register k with
    | some x =>
      rw [hreg] at hlatest
      refine (run_get hd' ((hsame _).mp hlatest.1) ?_).symm
      exact fun v hv => hlatest.2 v ((hsame v).mpr hv)
    | none =>
      rw [hreg] at hlatest
      have hlatest' := run_latest events' r' k
      cases hreg' : (run events' r').register k with
      | none => rfl
      | some x =>
        rw [hreg'] at hlatest'
        exact absurd rfl (hlatest _ ((hsame _).mpr hlatest'.1))
  cases hm : run events r
  cases hm' : run events' r'
  rw [hm,hm'] at hentries
  exact congrArg LwwMap.mk hentries

end MapEvent

namespace SetEvent
variable {T : Type} [Ord T] [Std.TransOrd T] [Std.LawfulEqOrd T] [DecidableEq T]

omit [Std.LawfulEqOrd T] [DecidableEq T] in
theorem foldl_members (events : List (SetEvent T)) : ∀ {sets : ℕ → LwwSet T} {maps : ℕ → LwwMap T Bool},
    (∀ r, (sets r).members = (maps r).entries) →
    ∀ r, (events.foldl apply sets r).members = ((events.map toMap).foldl MapEvent.apply maps r).entries := by
  induction events with
  | nil => exact fun h => h
  | cons e events ih =>
    intro sets maps h
    suffices hnext : ∀ r, (apply sets e r).members = (MapEvent.apply maps e.toMap r).entries from ih hnext
    intro r
    cases e with
    | add replica elem stamp =>
      show (Function.update sets replica _ r).members = (Function.update maps replica _ r).entries
      rw [Function.update_apply,Function.update_apply]
      split_ifs
      · exact congrArg (fun m => (Entries.write m elem true stamp).1) (h replica)
      · exact h r
    | remove replica elem stamp =>
      show (Function.update sets replica _ r).members = (Function.update maps replica _ r).entries
      rw [Function.update_apply,Function.update_apply]
      split_ifs
      · exact congrArg (fun m => (Entries.write m elem false stamp).1) (h replica)
      · exact h r
    | merge replica other =>
      show (Function.update sets replica _ r).members = (Function.update maps replica _ r).entries
      rw [Function.update_apply,Function.update_apply]
      split_ifs
      · exact congrArg₂ (fun m n => (Entries.merge m n).1) (h replica) (h other)
      · exact h r

omit [Std.LawfulEqOrd T] [DecidableEq T] in
theorem run_members (events : List (SetEvent T)) (r : ℕ) :
    (run events r).members = (MapEvent.run (events.map toMap) r).entries :=
  foldl_members events (fun _ => rfl) r

end SetEvent

/-- Merging last-writer-wins maps and sets is commutative where one stamp means one value,
associative and idempotent. However replicas write and merge, a key has the value of the greatest
stamp its replica has seen, and replicas that have seen the same writes are the same. -/
theorem lww_join {K V : Type} [Ord K] [Std.TransOrd K] [Std.LawfulEqOrd K] [DecidableEq K] :
    ((∀ m other : LwwMap K V, m.entries.Agrees other.entries → (m.merge other).1 = (other.merge m).1) ∧
      (∀ a b c : LwwMap K V, ((a.merge b).1.merge c).1 = (a.merge (b.merge c).1).1) ∧
      (∀ m : LwwMap K V, (m.merge m).1 = m) ∧
      ∀ (events : List (MapEvent K V)) (r : ℕ), Registers.Distinct (MapEvent.seen events r) →
        (∀ w ∈ MapEvent.seen events r, (∀ v ∈ MapEvent.seen events r, v.key = w.key → v.stamp ≤ w.stamp) →
          (MapEvent.run events r).get w.key = some w.value) ∧
        ∀ events' r', (∀ w, w ∈ MapEvent.seen events r ↔ w ∈ MapEvent.seen events' r') →
          MapEvent.run events r = MapEvent.run events' r') ∧
    (∀ s other : LwwSet K, s.members.Agrees other.members → (s.merge other).1 = (other.merge s).1) ∧
      (∀ a b c : LwwSet K, ((a.merge b).1.merge c).1 = (a.merge (b.merge c).1).1) ∧
      (∀ s : LwwSet K, (s.merge s).1 = s) ∧
      ∀ (events : List (SetEvent K)) (r : ℕ), Registers.Distinct (SetEvent.seen events r) →
        (∀ w ∈ SetEvent.seen events r, (∀ v ∈ SetEvent.seen events r, v.key = w.key → v.stamp ≤ w.stamp) →
          (SetEvent.run events r).contains w.key = w.value) ∧
        ∀ events' r', (∀ w, w ∈ SetEvent.seen events r ↔ w ∈ SetEvent.seen events' r') →
          SetEvent.run events r = SetEvent.run events' r' := by
  refine ⟨⟨?_,?_,?_,?_⟩,?_,?_,?_,?_⟩
  · exact fun m other h => congrArg LwwMap.mk (Entries.merge_comm h)
  · exact fun a b c => congrArg LwwMap.mk (Entries.merge_assoc a.entries b.entries c.entries)
  · exact fun m => congrArg LwwMap.mk (Entries.merge_self m.entries)
  · intro events r hd
    refine ⟨?_,fun events' r' hsame => MapEvent.run_converges hd hsame⟩
    intro w hw hmax
    unfold LwwMap.get
    rw [MapEvent.run_get hd hw hmax]
    rfl
  · exact fun s other h => congrArg LwwSet.mk (Entries.merge_comm h)
  · exact fun a b c => congrArg LwwSet.mk (Entries.merge_assoc a.members b.members c.members)
  · exact fun s => congrArg LwwSet.mk (Entries.merge_self s.members)
  · intro events r hd
    refine ⟨?_,?_⟩
    · intro w hw hmax
      have hreg : (MapEvent.run (events.map SetEvent.toMap) r).entries[w.key]? = some ⟨w.value,w.stamp⟩ := MapEvent.run_get hd hw hmax
      unfold LwwSet.contains
      rw [SetEvent.run_members,hreg]
      rfl
    · intro events' r' hsame
      have hmap := congrArg LwwMap.entries (MapEvent.run_converges hd hsame)
      cases hs : SetEvent.run events r
      cases hs' : SetEvent.run events' r'
      rw [← SetEvent.run_members,← SetEvent.run_members,hs,hs'] at hmap
      exact congrArg LwwSet.mk hmap

/-- Two replicas write the same key, and merge both ways. -/
def crossed : List (MapEvent ℕ String) :=
  [.set 0 1 "old" (toLex (1,toLex (0,1))),.set 1 1 "new" (toLex (1,toLex (0,2))),.merge 0 1,.merge 1 0]

theorem crossed_join : (MapEvent.run crossed 0).get 1 = some "new" ∧ MapEvent.run crossed 0 = MapEvent.run crossed 1 := by
  have hzero : MapEvent.seen crossed 0 = [⟨1,toLex (1,toLex (0,1)),"old"⟩,⟨1,toLex (1,toLex (0,2)),"new"⟩] := rfl
  have hone : MapEvent.seen crossed 1 =
      [⟨1,toLex (1,toLex (0,2)),"new"⟩,⟨1,toLex (1,toLex (0,1)),"old"⟩,⟨1,toLex (1,toLex (0,2)),"new"⟩] := rfl
  have hdistinct : Registers.Distinct (MapEvent.seen crossed 0) := by
    rw [hzero]
    intro w hw v hv _ hs
    simp only [List.mem_cons,List.not_mem_nil,or_false] at hw hv
    obtain rfl | rfl := hw <;> obtain rfl | rfl := hv
    · rfl
    · exact absurd hs (by decide)
    · exact absurd hs (by decide)
    · rfl
  have hjoin := (lww_join (K := ℕ) (V := String)).1.2.2.2 crossed 0 hdistinct
  refine ⟨hjoin.1 ⟨1,toLex (1,toLex (0,2)),"new"⟩ (by rw [hzero]; simp) ?_,hjoin.2 crossed 1 ?_⟩
  · rw [hzero]
    intro v hv _
    simp only [List.mem_cons,List.not_mem_nil,or_false] at hv
    obtain rfl | rfl := hv
    · decide
    · exact le_rfl
  · intro w
    rw [hzero,hone]
    simp only [List.mem_cons,List.not_mem_nil,or_false]
    tauto

end Drevo
