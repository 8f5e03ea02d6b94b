import Drevo.Wal.Format

/-! The value tree of a log record, as the serializers that go through one write and read it:
an entry is an object with one member, named after its kind. A float that is not finite has no
JSON number and is written as null. -/
namespace Drevo

theorem mapM_map_eq {α β : Type} {f : α → β} {r : β → Option α} {p : α → Bool} {l : List α}
    (h : ∀ a ∈ l, r (f a) = if p a then some a else none) :
    (l.map f).mapM r = if l.all p then some l else none := by
  induction l with
  | nil => rfl
  | cons a l ih =>
    have hrest := ih (fun b hb => h b (List.mem_cons_of_mem _ hb))
    rw [List.map_cons,List.mapM_cons,h a (List.mem_cons_self ..),hrest,List.all_cons]
    cases p a <;> cases l.all p <;> rfl

/-- How deep the arrays and objects of a value are nested. -/
def Json.depth : Json → ℕ
  | .array items => 1+depthItems items
  | .object members => 1+depthMembers members
  | _ => 0
where
  depthItems : List Json → ℕ
    | [] => 0
    | x :: xs => max (Json.depth x) (depthItems xs)
  depthMembers : List (String × Json) → ℕ
    | [] => 0
    | (_,x) :: xs => max (Json.depth x) (depthMembers xs)

/-- The decimal text of single-precision floats: the shortest that denotes a finite one, and
the readers of a decimal text and of an integer. -/
class FloatText where
  text : F32 → String
  read : String → Option F32
  ofInt : ℤ → Option F32

/-! ## Fields -/

def boolValue : Json → Option Bool
  | .bool b => some b
  | _ => none

def natValue : Json → Option ℕ
  | .int i => if 0 ≤ i then some i.toNat else none
  | _ => none

def intValue : Json → Option ℤ
  | .int i => some i
  | _ => none

def stringValue : Json → Option String
  | .string s => some s
  | _ => none

def byteValue : Json → Option ℕ
  | .int i => if 0 ≤ i ∧ i < 256 then some i.toNat else none
  | _ => none

/-- The last `n` bytes of a number, lowest first. -/
def lowBytes : ℕ → ℕ → List ℕ
  | 0,_ => []
  | n+1,x => x%256 :: lowBytes n (x/256)

def ofBytes (bytes : List ℕ) : ℕ := bytes.foldr (fun b x => b+256*x) 0

theorem lowBytes_length (n x : ℕ) : (lowBytes n x).length = n := by
  induction n generalizing x with
  | zero => rfl
  | succ n ih => simp [lowBytes,ih]

theorem lowBytes_lt (n x : ℕ) : ∀ b ∈ lowBytes n x, b < 256 := by
  induction n generalizing x with
  | zero => simp [lowBytes]
  | succ n ih =>
    intro b hb
    rcases List.mem_cons.mp hb with rfl | hb
    · exact Nat.mod_lt _ (by norm_num)
    · exact ih _ b hb

theorem ofBytes_lowBytes (n x : ℕ) (h : x < 256^n) : ofBytes (lowBytes n x) = x := by
  induction n generalizing x with
  | zero =>
    rw [pow_zero] at h
    simp only [lowBytes,ofBytes,List.foldr_nil]
    omega
  | succ n ih =>
    have hx : x/256 < 256^n := by
      rw [Nat.div_lt_iff_lt_mul (by norm_num),← pow_succ]
      exact h
    have hrest := ih (x/256) hx
    simp only [lowBytes,ofBytes,List.foldr_cons] at hrest ⊢
    rw [hrest]
    omega

/-- The sixteen bytes, first one first. -/
def uuidToValue (u : Uuid) : Json := .array ((lowBytes 16 u.toNat).reverse.map (fun b : ℕ => .int (b : ℤ)))

def uuidValue : Json → Option Uuid
  | .array items =>
    if items.length = 16 then (items.mapM byteValue).map (fun bytes => BitVec.ofNat 128 (ofBytes bytes.reverse))
    else none
  | _ => none

theorem uuidValue_uuidToValue (u : Uuid) : uuidValue (uuidToValue u) = some u := by
  have hbytes : ((lowBytes 16 u.toNat).reverse.map (fun b : ℕ => Json.int (b : ℤ))).mapM byteValue =
      some (lowBytes 16 u.toNat).reverse := by
    rw [mapM_map_eq (p := fun _ => true)]
    · simp
    · intro b hb
      have hlt := lowBytes_lt 16 _ b (List.mem_reverse.mp hb)
      simp only [byteValue,if_true]
      rw [if_pos (by omega),Int.toNat_natCast]
  have hu : u.toNat < 256^16 := u.isLt.trans_le (by norm_num)
  simp only [uuidToValue,uuidValue,List.length_map,List.length_reverse,lowBytes_length,if_true,hbytes,
    Option.map_some,List.reverse_reverse,ofBytes_lowBytes 16 _ hu,BitVec.ofNat_toNat,BitVec.setWidth_eq]

def propertiesToValue (p : Properties) : Json := .object p.entries

/-- The members of an object stand in key order. -/
def propertiesValue : Json → Option Properties
  | .object members => if h : members.Pairwise (fun a b => a.1 < b.1) then some ⟨members,h⟩ else none
  | _ => none

theorem propertiesValue_propertiesToValue (p : Properties) : propertiesValue (propertiesToValue p) = some p := by
  simp only [propertiesToValue,propertiesValue,p.sorted,dite_true]

theorem natValue_int (n : ℕ) : natValue (.int (n : ℤ)) = some n := by
  simp [natValue]

section Floats
variable [FloatText]

def f32ToValue (x : F32) : Json := if x.isFinite then .float (FloatText.text x) else .null

def f32Value : Json → Option F32
  | .float text => FloatText.read text
  | .int i => FloatText.ofInt i
  | _ => none

/-- The text of the float reads back. -/
def F32.Shown (x : F32) : Prop := x.isFinite = true → FloatText.read (FloatText.text x) = some x

theorem f32Value_f32ToValue {x : F32} (h : x.Shown) :
    f32Value (f32ToValue x) = if x.isFinite then some x else none := by
  unfold f32ToValue
  split_ifs with hx
  · exact h hx
  · rfl

/-! ## Records -/

omit [FloatText] in
def Node.toValue (n : Node) : Json :=
  .object
    [("body",.string n.body),("body_html",.string n.bodyHtml),("created_at",.int n.createdAt),("id",.int n.id),
      ("kind",.string n.kind),("properties",propertiesToValue n.properties),("title",.string n.title),
      ("updated_at",.int n.updatedAt),("uuid",uuidToValue n.uuid)]

omit [FloatText] in
def Node.ofValue : Json → Option Node
  | .object m => do
    let id ← (m.lookup "id").bind natValue
    let uuid ← (m.lookup "uuid").bind uuidValue
    let kind ← (m.lookup "kind").bind stringValue
    let title ← (m.lookup "title").bind stringValue
    let body ← (m.lookup "body").bind stringValue
    let bodyHtml ← (m.lookup "body_html").bind stringValue
    let createdAt ← (m.lookup "created_at").bind intValue
    let updatedAt ← (m.lookup "updated_at").bind intValue
    let properties ← (m.lookup "properties").bind propertiesValue
    some ⟨id,uuid,kind,title,body,bodyHtml,createdAt,updatedAt,properties⟩
  | _ => none

omit [FloatText] in
theorem Node.ofValue_toValue (n : Node) : Node.ofValue n.toValue = some n := by
  simp [Node.ofValue,Node.toValue,List.lookup,natValue_int,uuidValue_uuidToValue,stringValue,intValue,
    propertiesValue_propertiesToValue]

def Edge.toValue (e : Edge) : Json :=
  .object
    [("created_at",.int e.createdAt),("from_id",.int e.fromId),("id",.int e.id),("kind",.string e.kind),
      ("properties",propertiesToValue e.properties),("to_id",.int e.toId),("uuid",uuidToValue e.uuid),
      ("weight",f32ToValue e.weight)]

def Edge.ofValue : Json → Option Edge
  | .object m => do
    let id ← (m.lookup "id").bind natValue
    let uuid ← (m.lookup "uuid").bind uuidValue
    let fromId ← (m.lookup "from_id").bind natValue
    let toId ← (m.lookup "to_id").bind natValue
    let kind ← (m.lookup "kind").bind stringValue
    let weight ← (m.lookup "weight").bind f32Value
    let createdAt ← (m.lookup "created_at").bind intValue
    let properties ← (m.lookup "properties").bind propertiesValue
    some ⟨id,uuid,fromId,toId,kind,weight,createdAt,properties⟩
  | _ => none

theorem Edge.ofValue_toValue {e : Edge} (h : e.weight.Shown) :
    Edge.ofValue e.toValue = if e.weight.isFinite then some e else none := by
  have hw := f32Value_f32ToValue h
  by_cases hx : e.weight.isFinite = true
  · rw [if_pos hx] at hw ⊢
    simp [Edge.ofValue,Edge.toValue,List.lookup,natValue_int,uuidValue_uuidToValue,stringValue,intValue,
      propertiesValue_propertiesToValue,hw]
  · rw [if_neg hx] at hw ⊢
    simp [Edge.ofValue,Edge.toValue,List.lookup,natValue_int,uuidValue_uuidToValue,stringValue,hw]

/-! ## Entries -/

/-- The object with the one member `name`. -/
def tagged (name : String) (payload : Json) : Json := .object [(name,payload)]

def GraphOp.toValue : GraphOp → Json
  | .upsertNode node => tagged "UpsertNode" node.toValue
  | .deleteNode id => tagged "DeleteNode" (.int id)
  | .upsertEdge edge => tagged "UpsertEdge" edge.toValue
  | .deleteEdge id => tagged "DeleteEdge" (.int id)
  | .setEmbedding id vector => tagged "SetEmbedding" (.array [.int id,.array (vector.map f32ToValue)])
  | .deleteEmbedding id => tagged "DeleteEmbedding" (.int id)

/-- The id and the components of an embedding. -/
def embeddingValue : Json → Option GraphOp
  | .array [id,.array components] => do
    let id ← natValue id
    let vector ← components.mapM f32Value
    some (.setEmbedding id vector)
  | _ => none

def GraphOp.ofPayload (name : String) (payload : Json) : Option GraphOp :=
  if name = "UpsertNode" then (Node.ofValue payload).map .upsertNode
  else if name = "DeleteNode" then (natValue payload).map .deleteNode
  else if name = "UpsertEdge" then (Edge.ofValue payload).map .upsertEdge
  else if name = "DeleteEdge" then (natValue payload).map .deleteEdge
  else if name = "SetEmbedding" then embeddingValue payload
  else if name = "DeleteEmbedding" then (natValue payload).map .deleteEmbedding
  else none

def GraphOp.ofValue : Json → Option GraphOp
  | .object [(name,payload)] => GraphOp.ofPayload name payload
  | _ => none

def WalOp.toValue : WalOp → Json
  | .graph op => op.toValue
  | .prepare gid preparedAtMs ops =>
    tagged "Prepare"
      (.object [("gid",.string gid),("ops",.array (ops.map GraphOp.toValue)),("prepared_at_ms",.int preparedAtMs)])
  | .commitPrepared gid => tagged "CommitPrepared" (.object [("gid",.string gid)])
  | .rollbackPrepared gid heuristic =>
    -- an outcome that was not heuristic is left out
    tagged "RollbackPrepared"
      (.object (("gid",.string gid) :: if heuristic then [("heuristic",.bool true)] else []))

def arrayOf {α : Type} (read : Json → Option α) : Json → Option (List α)
  | .array items => items.mapM read
  | _ => none

def prepareValue : Json → Option WalOp
  | .object m => do
    let gid ← (m.lookup "gid").bind stringValue
    let preparedAtMs ← (m.lookup "prepared_at_ms").bind intValue
    let ops ← (m.lookup "ops").bind (arrayOf GraphOp.ofValue)
    some (.prepare gid preparedAtMs ops)
  | _ => none

def commitPreparedValue : Json → Option WalOp
  | .object m => ((m.lookup "gid").bind stringValue).map .commitPrepared
  | _ => none

def rollbackPreparedValue : Json → Option WalOp
  | .object m => do
    let gid ← (m.lookup "gid").bind stringValue
    let heuristic ← match m.lookup "heuristic" with
      | none => some false
      | some v => boolValue v
    some (.rollbackPrepared gid heuristic)
  | _ => none

def WalOp.ofValue : Json → Option WalOp
  | .object [(name,payload)] =>
    if name = "Prepare" then prepareValue payload
    else if name = "CommitPrepared" then commitPreparedValue payload
    else if name = "RollbackPrepared" then rollbackPreparedValue payload
    else (GraphOp.ofPayload name payload).map .graph
  | _ => none

end Floats

/-! ## What comes back -/

/-- The floats the change writes. -/
def GraphOp.floats : GraphOp → List F32
  | .upsertEdge edge => [edge.weight]
  | .setEmbedding _ vector => vector
  | _ => []

def WalOp.floats : WalOp → List F32
  | .graph op => op.floats
  | .prepare _ _ ops => ops.flatMap GraphOp.floats
  | _ => []

def GraphOp.finite (op : GraphOp) : Bool := op.floats.all F32.isFinite

def WalOp.finite (op : WalOp) : Bool := op.floats.all F32.isFinite

section
variable [FloatText]

theorem GraphOp.ofPayload_embedding {id : ℕ} {vector : List F32} (h : ∀ x ∈ vector, x.Shown) :
    embeddingValue (.array [.int id,.array (vector.map f32ToValue)]) =
      if vector.all F32.isFinite then some (.setEmbedding id vector) else none := by
  have hv : (vector.map f32ToValue).mapM f32Value = if vector.all F32.isFinite then some vector else none :=
    mapM_map_eq (fun x hx => f32Value_f32ToValue (h x hx))
  simp only [embeddingValue,natValue_int,Option.bind_eq_bind,Option.bind_some,hv]
  split_ifs <;> rfl

theorem GraphOp.ofValue_toValue {op : GraphOp} (h : ∀ x ∈ op.floats, x.Shown) :
    GraphOp.ofValue op.toValue = if op.finite then some op else none := by
  cases op with
  | upsertNode node => simp [ofValue,toValue,tagged,ofPayload,Node.ofValue_toValue,finite,floats]
  | deleteNode id => simp [ofValue,toValue,tagged,ofPayload,natValue_int,finite,floats]
  | upsertEdge edge =>
    have he := Edge.ofValue_toValue (h edge.weight (by simp [floats]))
    simp only [ofValue,toValue,tagged,ofPayload,String.reduceEq,if_false,if_true,he,finite,floats,List.all_cons,
      List.all_nil,Bool.and_true]
    split_ifs <;> rfl
  | deleteEdge id => simp [ofValue,toValue,tagged,ofPayload,natValue_int,finite,floats]
  | setEmbedding id vector =>
    simp only [ofValue,toValue,tagged,ofPayload,String.reduceEq,if_false,if_true,finite,floats]
    exact ofPayload_embedding h
  | deleteEmbedding id => simp [ofValue,toValue,tagged,ofPayload,natValue_int,finite,floats]

theorem WalOp.ofValue_graph (op : GraphOp) : WalOp.ofValue op.toValue = (GraphOp.ofValue op.toValue).map .graph := by
  cases op <;> rfl

theorem WalOp.ofValue_toValue {op : WalOp} (h : ∀ x ∈ op.floats, x.Shown) :
    WalOp.ofValue op.toValue = if op.finite then some op else none := by
  cases op with
  | graph op =>
    have hop := GraphOp.ofValue_toValue h
    have hfinite : (WalOp.graph op).finite = op.finite := rfl
    rw [WalOp.toValue,WalOp.ofValue_graph,hop,hfinite]
    split_ifs <;> rfl
  | prepare gid preparedAtMs ops =>
    have hops : (ops.map GraphOp.toValue).mapM GraphOp.ofValue =
        if ops.all GraphOp.finite then some ops else none := by
      refine mapM_map_eq (fun op hop => GraphOp.ofValue_toValue ?_)
      exact fun x hx => h x (List.mem_flatMap.mpr ⟨op,hop,hx⟩)
    have hall : (WalOp.prepare gid preparedAtMs ops).finite = ops.all GraphOp.finite := by
      simp only [WalOp.finite,WalOp.floats,List.all_flatMap]
      rfl
    have hvalue : WalOp.ofValue (WalOp.prepare gid preparedAtMs ops).toValue =
        ((ops.map GraphOp.toValue).mapM GraphOp.ofValue).map (.prepare gid preparedAtMs) := by
      simp [WalOp.ofValue,WalOp.toValue,tagged,prepareValue,List.lookup,stringValue,intValue,arrayOf,
        Option.map_eq_bind,Function.comp_def]
    rw [hvalue,hops,hall]
    split_ifs <;> rfl
  | commitPrepared gid =>
    simp [WalOp.ofValue,WalOp.toValue,tagged,commitPreparedValue,List.lookup,stringValue,WalOp.finite,WalOp.floats]
  | rollbackPrepared gid heuristic =>
    cases heuristic <;>
    simp [WalOp.ofValue,WalOp.toValue,tagged,rollbackPreparedValue,List.lookup,stringValue,boolValue,WalOp.finite,
      WalOp.floats]

end
end Drevo
