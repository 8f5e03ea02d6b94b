import Drevo.Lib.Index
import Drevo.Lib.Shared

/-! The map from entity ids to values: a vector of slots in chunks of 64 that copies share until
one is written, and a small table for the ids far past the vector. It behaves as a finite map, and
so do all its copies. -/
namespace Drevo
open Lib

/-- How far past the end of the vector an id may land and still be stored in it. -/
def GROWTH_SLACK : ℕ := 4096

/-- Slots in a chunk. -/
def CHUNK : ℕ := 64

def u64Max : ℕ := 2^64-1

structure DenseMap (T : Type) where
  chunks : List ℕ
  sparse : Map ℕ T
  sparseMin : ℕ
  len : ℕ

/-- The heap of the chunks. -/
abbrev Chunks (T : Type) := Heap (List (Option T))

namespace DenseMap
variable {T : Type}

def default : DenseMap T := ⟨[],∅,u64Max,0⟩

/-- The number of ids the vector covers. -/
def ending (m : DenseMap T) : ℕ := m.chunks.length*CHUNK

def slot (m : DenseMap T) (id : ℕ) : Option ℕ := if id < m.ending then some id else none

/-- What the slot `i` holds. -/
def slotValue (h : Chunks T) (m : DenseMap T) (i : ℕ) : Option T :=
  ((h.value (m.chunks.getD (i/CHUNK) 0))[i%CHUNK]?).join

/-- Write the slot `i`: its chunk is copied first if a copy of the map shares it. -/
def setSlot (h : Chunks T) (m : DenseMap T) (i : ℕ) (v : Option T) : Chunks T × DenseMap T :=
  let (h,p) := h.update (m.chunks.getD (i/CHUNK) 0) (fun c => c.set (i%CHUNK) v)
  (h,{ m with chunks := m.chunks.set (i/CHUNK) p })

/-- Push chunks without a value. -/
def push (h : Chunks T) (m : DenseMap T) : ℕ → Chunks T × DenseMap T
  | 0 => (h,m)
  | n+1 =>
    let (h,p) := h.alloc (List.replicate CHUNK none)
    push h { m with chunks := m.chunks ++ [p] } n

def migrate (hm : Chunks T × DenseMap T) (k : ℕ) : Chunks T × DenseMap T :=
  match hm.2.sparse[k]? with
  | none => hm
  | some v => setSlot hm.1 { hm.2 with sparse := hm.2.sparse.erase k } k (some v)

/-- The smallest outlier. -/
def leastOutlier (m : DenseMap T) : ℕ := m.sparse.keys.min?.getD u64Max

def denseSlot (h : Chunks T) (m : DenseMap T) (id : ℕ) : (Chunks T × DenseMap T) × Option ℕ :=
  match m.slot id with
  | some i => ((h,m),some i)
  | none =>
    let reach := min (min (m.ending*2) u64Max + GROWTH_SLACK) u64Max
    if reach < id then ((h,m),none)
    else
      -- until the vector covers the id
      let hm := push h m (id/CHUNK+1-m.chunks.length)
      if hm.2.sparseMin < hm.2.ending then
        let hm := (hm.2.sparse.keys.filter (· < hm.2.ending)).foldl migrate hm
        ((hm.1,{ hm.2 with sparseMin := hm.2.leastOutlier }),some id)
      else (hm,some id)

def get (h : Chunks T) (m : DenseMap T) (id : ℕ) : Option T :=
  match m.slot id with
  | some i => m.slotValue h i
  | none => m.sparse[id]?

def getMut (h : Chunks T) (m : DenseMap T) (id : ℕ) (g : T → T) : (Chunks T × DenseMap T) × Option T :=
  match m.slot id with
  | some i => match m.slotValue h i with
    | none => ((h,m),none)
    | some v => (m.setSlot h i (some (g v)),some v)
  | none => match m.sparse[id]? with
    | none => ((h,m),none)
    | some v => ((h,{ m with sparse := m.sparse.insert id (g v) }),some v)

def containsKey (h : Chunks T) (m : DenseMap T) (id : ℕ) : Bool := (m.get h id).isSome

/-- One more entry, unless there was one. -/
def counted (m : DenseMap T) (old : Option T) : DenseMap T :=
  if old.isNone then { m with len := m.len+1 } else m

def insert (h : Chunks T) (m : DenseMap T) (id : ℕ) (v : T) : (Chunks T × DenseMap T) × Option T :=
  match m.denseSlot h id with
  | ((h,m),some i) =>
    let old := m.slotValue h i
    let (h,m) := m.setSlot h i (some v)
    ((h,m.counted old),old)
  | ((h,m),none) =>
    let old := m.sparse[id]?
    let m := { m with sparseMin := min m.sparseMin id, sparse := m.sparse.insert id v }
    ((h,m.counted old),old)

def remove (h : Chunks T) (m : DenseMap T) (id : ℕ) : (Chunks T × DenseMap T) × Option T :=
  match m.slot id with
  | some i => match m.slotValue h i with
    | none => ((h,m),none)
    | some v =>
      let (h,m) := m.setSlot h i none
      ((h,{ m with len := m.len-1 }),some v)
  | none =>
    let old := m.sparse[id]?
    let m := { m with sparse := m.sparse.erase id }
    let m := if id = m.sparseMin then { m with sparseMin := m.leastOutlier } else m
    ((h,if old.isSome then { m with len := m.len-1 } else m),old)

def entryOrDefault (initial : T) (h : Chunks T) (m : DenseMap T) (id : ℕ) (g : T → T) : (Chunks T × DenseMap T) × Option T :=
  let (h,m) := if m.containsKey h id then (h,m) else (m.insert h id initial).1
  match m.slot id with
  | some i =>
    let v := (m.slotValue h i).getD initial
    (m.setSlot h i (some (g v)),some v)
  | none =>
    let v := (m.sparse[id]?).getD initial
    ((h,{ m with sparse := m.sparse.insert id (g v) }),some v)

/-- The entries: by ascending id in the vector, then the outliers. -/
def iter (h : Chunks T) (m : DenseMap T) : List (ℕ × T) :=
  (m.chunks.flatMap h.value).zipIdx.filterMap (fun p => p.1.map fun v => (p.2,v)) ++ m.sparse.toList

end DenseMap

/-- Maps that came from one another by copying, over one heap. -/
structure DenseMaps (T : Type) where
  heap : Chunks T
  maps : List (Option (DenseMap T))

/-- An operation on one of the maps. -/
inductive MapOp (T : Type) where
  | insert (id : ℕ) (v : T)
  | remove (id : ℕ)
  | get (id : ℕ)
  | getMut (id : ℕ) (g : T → T)
  | entryOrDefault (id : ℕ) (g : T → T)

inductive MapAct (T : Type) where
  | new
  | op (i : ℕ) (op : MapOp T)
  | clone (i : ℕ)
  | drop (i : ℕ)

namespace MapOp
variable {T : Type}

def dense (initial : T) (h : Chunks T) (m : DenseMap T) : MapOp T → (Chunks T × DenseMap T) × Option T
  | .insert id v => m.insert h id v
  | .remove id => m.remove h id
  | .get id => ((h,m),m.get h id)
  | .getMut id g => m.getMut h id g
  | .entryOrDefault id g => m.entryOrDefault initial h id g

def plain (initial : T) (f : Map ℕ T) : MapOp T → Map ℕ T × Option T
  | .insert id v => (f.insert id v,f[id]?)
  | .remove id => (f.erase id,f[id]?)
  | .get id => (f,f[id]?)
  | .getMut id g => match f[id]? with
    | none => (f,none)
    | some v => (f.insert id (g v),some v)
  | .entryOrDefault id g => (f.insert id (g ((f[id]?).getD initial)),some ((f[id]?).getD initial))

end MapOp

namespace DenseMaps
variable {T : Type}

def empty : DenseMaps T := ⟨Heap.empty [],[]⟩

def step (initial : T) (w : DenseMaps T) : MapAct T → DenseMaps T × Option T
  | .new => ({ w with maps := w.maps ++ [some .default] },none)
  | .op i op => match w.maps[i]? with
    | some (some m) =>
      let ((heap,m),reply) := op.dense initial w.heap m
      (⟨heap,w.maps.set i (some m)⟩,reply)
    | _ => (w,none)
  | .clone i => match w.maps[i]? with
    | some (some m) => (⟨w.heap.retainAll m.chunks,w.maps ++ [some m]⟩,none)
    | _ => (w,none)
  | .drop i => match w.maps[i]? with
    | some (some m) => (⟨w.heap.releaseAll m.chunks,w.maps.set i none⟩,none)
    | _ => (w,none)

def run (initial : T) (w : DenseMaps T) : List (MapAct T) → DenseMaps T × List (Option T)
  | [] => (w,[])
  | a :: rest =>
    let (w,reply) := w.step initial a
    let (w,replies) := w.run initial rest
    (w,reply :: replies)

end DenseMaps

/-- Finite maps, each a value of its own. -/
abbrev PlainMaps (T : Type) := List (Option (Map ℕ T))

namespace PlainMaps
variable {T : Type}

def step (initial : T) (w : PlainMaps T) : MapAct T → PlainMaps T × Option T
  | .new => (w ++ [some ∅],none)
  | .op i op => match w[i]? with
    | some (some f) => (w.set i (some (op.plain initial f).1),(op.plain initial f).2)
    | _ => (w,none)
  | .clone i => match w[i]? with
    | some (some f) => (w ++ [some f],none)
    | _ => (w,none)
  | .drop i => match w[i]? with
    | some (some _) => (w.set i none,none)
    | _ => (w,none)

def run (initial : T) (w : PlainMaps T) : List (MapAct T) → PlainMaps T × List (Option T)
  | [] => (w,[])
  | a :: rest =>
    let (w,reply) := PlainMaps.step initial w a
    let (w,replies) := PlainMaps.run initial w rest
    (w,reply :: replies)

end PlainMaps

end Drevo
