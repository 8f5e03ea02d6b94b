import Drevo.Bolt.Auth
import Drevo.Bolt.Loop

/-! Result streaming: how the rows of a `RUN` are divided among the `PULL`s and `DISCARD`s that follow. -/
namespace Drevo.Bolt

/-! ## What is asked -/

/-- A `PULL`, which sends the rows it takes, or a `DISCARD`, which does not. -/
structure Ask where
  env : Env
  sends : Bool
  extra : Dict

abbrev Row := List Value

namespace Ask

def message (a : Ask) : ClientMessage := if a.sends then .pull a.extra else .discard a.extra

/-- How many of the rows that remain the message is for: all of them if `n` is negative. -/
def covers (a : Ask) (remaining : ℕ) : ℕ :=
  if (extractN a.extra).toInt < 0 then remaining else min (extractN a.extra).toInt.toNat remaining

/-- The rows of each message, one block behind the other. -/
def blocks : List Ask → List Row → List (Ask × List Row)
  | [],_ => []
  | a :: asks,rows => (a,rows.take (a.covers rows.length)) :: blocks asks (rows.drop (a.covers rows.length))

def remaining : List Ask → List Row → List Row
  | [],rows => rows
  | a :: asks,rows => remaining asks (rows.drop (a.covers rows.length))

/-- The stream was not over before any of the messages but the first. -/
def Until (asks : List Ask) (rows : List Row) : Prop :=
  ∀ before a after, asks = before ++ a :: after → before ≠ [] → remaining before rows ≠ []

theorem blocks_flatten (asks : List Ask) (rows : List Row) :
    ((blocks asks rows).map Prod.snd).flatten ++ remaining asks rows = rows := by
  induction asks generalizing rows with
  | nil => rfl
  | cons a asks ih =>
    rw [blocks,remaining,List.map_cons,List.flatten_cons,List.append_assoc,ih]
    exact List.take_append_drop _ rows

theorem Until.tail {a : Ask} {asks : List Ask} {rows : List Row} (h : Until (a :: asks) rows) :
    Until asks (rows.drop (a.covers rows.length)) := by
  intro before b after heq _
  exact h (a :: before) b after (by rw [heq]; rfl) (by simp)

theorem Until.open {a : Ask} {asks : List Ask} {rows : List Row} (h : Until (a :: asks) rows) (hne : asks ≠ []) :
    rows.drop (a.covers rows.length) ≠ [] := by
  obtain ⟨b,after,rfl⟩ := List.exists_cons_of_ne_nil hne
  exact h [a] b after rfl (by simp)

end Ask

/-- The rows among the answers. -/
def recordsOf (answers : List ServerMessage) : List Row :=
  answers.filterMap (fun m =>
    match m with
    | .record fields => some fields
    | _ => none)

theorem recordsOf_append (xs ys : List ServerMessage) : recordsOf (xs ++ ys) = recordsOf xs ++ recordsOf ys :=
  List.filterMap_append

theorem recordsOf_answer (rows : List Row) (md : Dict) : recordsOf (rows.map .record ++ [.success md]) = rows := by
  rw [recordsOf_append]
  have hrows : recordsOf (rows.map .record) = rows := by
    induction rows with
    | nil => rfl
    | cons row rows ih => exact congrArg (List.cons row) ih
  rw [hrows]
  exact List.append_nil rows

/-! ## One message -/

theorem drain_eq (n : Int64) (taken : ℕ) (rows : List Row) :
    drain n taken rows = (rows.take (if n.toInt < 0 then rows.length else min (n.toInt.toNat-taken) rows.length),
      rows.drop (if n.toInt < 0 then rows.length else min (n.toInt.toNat-taken) rows.length),
      (rows.drop (if n.toInt < 0 then rows.length else min (n.toInt.toNat-taken) rows.length)).isEmpty) := by
  have hsign : 0 ≤ n ↔ 0 ≤ n.toInt := Int64.le_iff_toInt_le
  induction rows generalizing taken with
  | nil =>
    unfold drain
    split_ifs <;> simp
  | cons row rows ih =>
    unfold drain
    by_cases hn : n.toInt < 0
    · have hall : ¬ (0 ≤ n ∧ n.toInt ≤ taken) := fun h => absurd (hsign.mp h.1) (by omega)
      rw [if_neg hall,if_pos hn]
      simp only [ih (taken+1),if_pos hn]
      simp
    · rw [if_neg hn]
      by_cases hfull : n.toInt ≤ taken
      · have hzero : min (n.toInt.toNat-taken) (row :: rows).length = 0 := by omega
        rw [if_pos ⟨hsign.mpr (by omega),hfull⟩,hzero]
        rfl
      · have hall : ¬ (0 ≤ n ∧ n.toInt ≤ taken) := fun h => hfull h.2
        have hsucc : min (n.toInt.toNat-taken) (row :: rows).length = min (n.toInt.toNat-(taken+1)) rows.length+1 := by
          rw [List.length_cons]
          omega
        rw [if_neg hall,hsucc]
        simp only [ih (taken+1),if_neg hn]
        rfl

/-- The session streams these rows; a drained stream ends in the state `drained`. -/
structure Streaming (s : Session) (rows : List Row) (drained : State) : Prop where
  pending : s.pending = some rows
  state : (s.state = .streaming ∧ drained = .ready) ∨ (s.state = .txStreaming ∧ drained = .txReady)

/-- What the message is answered with: its rows, if it sends them, and whether there are more. -/
def Ask.answer (a : Ask) (rows : List Row) : List ServerMessage :=
  (if a.sends then rows.take (a.covers rows.length) else []).map .record ++
    [.success (if rows.drop (a.covers rows.length) = [] then [("has_more",.boolean false),("type",.string "rw")]
      else [("has_more",.boolean true)])]

section
variable [JsonText]

theorem handle_ask {s : Session} {rows : List Row} {drained : State} (h : Streaming s rows drained) (a : Ask) :
    (s.handle a.env a.message).1 = a.answer rows ∧
      (if rows.drop (a.covers rows.length) = [] then (s.handle a.env a.message).2.state = drained
        else (s.handle a.env a.message).2.state = s.state ∧
          Streaming (s.handle a.env a.message).2 (rows.drop (a.covers rows.length)) drained) := by
  obtain ⟨hpending,hstate⟩ := h
  have hdispatch : s.dispatch a.env a.message = s.takeRows a.sends (extractN a.extra) rows drained := by
    obtain ⟨env,sends,extra⟩ := a
    obtain ⟨hs,rfl⟩ | ⟨hs,rfl⟩ := hstate
    · cases sends <;> simp [Ask.message,Session.dispatch,hs,Session.dispatchOpen,Session.handlePull,Session.handleDiscard,
        Session.handleStream,hpending]
    · cases sends <;> simp [Ask.message,Session.dispatch,hs,Session.dispatchOpen,Session.handlePull,Session.handleDiscard,
        Session.handleStream,hpending]
  have hdrain : drain (extractN a.extra) 0 rows = (rows.take (a.covers rows.length),rows.drop (a.covers rows.length),
      (rows.drop (a.covers rows.length)).isEmpty) := by
    rw [drain_eq]
    simp only [Ask.covers,Nat.sub_zero]
  simp only [Session.handle,hdispatch,Session.takeRows,hdrain,Ask.answer]
  cases hrest : rows.drop (a.covers rows.length) with
  | nil =>
    simp only [List.isEmpty_nil,if_true]
    exact ⟨by split_ifs <;> rfl,trivial⟩
  | cons row rest =>
    simp only [List.isEmpty_cons,Bool.false_eq_true,if_false,reduceCtorEq]
    exact ⟨by split_ifs <;> rfl,trivial,rfl,hstate⟩

/-! ## Until the stream ends -/

namespace Session

def serve (s : Session) : List Ask → List (List ServerMessage) × Session
  | [] => ([],s)
  | a :: asks => ((s.handle a.env a.message).1 :: ((s.handle a.env a.message).2.serve asks).1,
      ((s.handle a.env a.message).2.serve asks).2)

end Session

/-- No row is lost between the messages: their blocks make up the rows, what is sent is the blocks of the `PULL`s, and
each answer says whether rows remain, as does the state. -/
structure LosesNothing (s : Session) (rows : List Row) (drained : State) (asks : List Ask) : Prop where
  divided : ((Ask.blocks asks rows).map Prod.snd).flatten ++ Ask.remaining asks rows = rows
  sent : recordsOf (s.serve asks).1.flatten = (((Ask.blocks asks rows).filter (fun b => b.1.sends)).map Prod.snd).flatten
  answers : ∀ before a after, asks = before ++ a :: after →
    ((s.serve before).2.handle a.env a.message).1 = a.answer (Ask.remaining before rows)
  state : ∀ before a after, asks = before ++ a :: after → ((s.serve before).2.handle a.env a.message).2.state =
    if Ask.remaining (before ++ [a]) rows = [] then drained else s.state

theorem streaming_loses_nothing {s : Session} {rows : List Row} {drained : State} (h : Streaming s rows drained) {asks : List Ask}
    (ha : Ask.Until asks rows) : LosesNothing s rows drained asks := by
  refine ⟨Ask.blocks_flatten asks rows,?_,?_,?_⟩
  · induction asks generalizing s rows with
    | nil => rfl
    | cons a asks ih =>
      obtain ⟨hanswer,hnext⟩ := handle_ask h a
      have hrest : recordsOf ((s.handle a.env a.message).2.serve asks).1.flatten =
          (((Ask.blocks asks (rows.drop (a.covers rows.length))).filter (fun b => b.1.sends)).map Prod.snd).flatten := by
        by_cases hasks : asks = []
        · rw [hasks]
          rfl
        · rw [if_neg (ha.open hasks)] at hnext
          exact ih hnext.2 ha.tail
      rw [Session.serve,List.flatten_cons,recordsOf_append,hrest,hanswer,Ask.answer,recordsOf_answer,Ask.blocks]
      cases hs : a.sends with
      | true => simp [hs]
      | false => simp [hs]
  · intro before a after heq
    induction before generalizing s rows asks with
    | nil =>
      subst heq
      exact (handle_ask h a).1
    | cons b before ih =>
      subst heq
      obtain ⟨-,hnext⟩ := handle_ask h b
      rw [if_neg (ha.open (by simp))] at hnext
      exact ih hnext.2 ha.tail rfl
  · intro before a after heq
    induction before generalizing s rows asks with
    | nil =>
      subst heq
      obtain ⟨-,hnext⟩ := handle_ask h a
      simp only [List.nil_append,Ask.remaining,Session.serve]
      by_cases hrest : rows.drop (a.covers rows.length) = []
      · rw [if_pos hrest] at hnext ⊢
        exact hnext
      · rw [if_neg hrest] at hnext ⊢
        exact hnext.1
    | cons b before ih =>
      subst heq
      obtain ⟨-,hnext⟩ := handle_ask h b
      rw [if_neg (ha.open (by simp))] at hnext
      rw [← hnext.1]
      exact ih hnext.2 ha.tail rfl

/-! ## A successful `RUN` -/

/-- The rows that the query of a `RUN` returned. -/
inductive Env.Returned (env : Env) : List Row → Prop where
  | command (result : ResultSet) : env.securityResult = .ok result → Returned env result.rows
  | inTx (result : ResultSet) : env.statement.2 = .ok result → Returned env result.rows
  | autocommit (result : ResultSet) : env.autocommit.2 = .ok result → Returned env result.rows
  | prepare (gid : String) : Returned env [[.string gid]]

/-- A handler of a `RUN` fails, or what was returned is streamed. -/
inductive RunReplies (env : Env) (r : List ServerMessage × Session) : Prop where
  | failed (md : Dict) : r.1 = [.failure md] → RunReplies env r
  | opened (rows : List Row) (drained : State) : env.Returned rows → Streaming r.2 rows drained → RunReplies env r

namespace Session

omit [JsonText] in
theorem fail_runReplies (env : Env) (s : Session) (code message : String) : RunReplies env (s.fail code message) := .failed _ rfl

omit [JsonText] in
theorem checkTxDeadline_runReplies {s s' : Session} {env : Env} {failure : List ServerMessage}
    (h : s.checkTxDeadline env = (some failure,s')) : RunReplies env (failure,s') := by
  simp only [checkTxDeadline] at h
  split at h
  · cases h
  · obtain ⟨h₁,rfl⟩ := Prod.mk.inj h
    obtain rfl := Option.some.inj h₁
    exact .failed _ rfl

omit [JsonText] in
theorem stream_runReplies {env : Env} (s : Session) (inTx : Bool) {result : ResultSet} (h : env.Returned result.rows) :
    RunReplies env (s.stream inTx result) := by
  cases inTx with
  | false => exact .opened result.rows .ready h ⟨rfl,.inl ⟨rfl,rfl⟩⟩
  | true => exact .opened result.rows .txReady h ⟨rfl,.inr ⟨rfl,rfl⟩⟩

theorem handlePrepare_runReplies (s : Session) (env : Env) (gid : Expression) (params : Dict) (inTx : Bool) :
    RunReplies env (s.handlePrepare env gid params inTx) := by
  simp only [handlePrepare]
  split
  · exact fail_runReplies env _ _ _
  rename_i g _
  by_cases hm : (!env.mayPrepare) = true
  · rw [if_pos hm]
    exact fail_runReplies env _ _ _
  rw [if_neg hm]
  split
  · rename_i h
    exact checkTxDeadline_runReplies h
  rename_i s' _
  cases s'.nativeTx with
  | none => exact fail_runReplies env _ _ _
  | some a =>
  simp only
  by_cases ht : (s'.services a.tx.service).txTerminated a.tx.id = true
  · rw [if_pos ht]
    exact fail_runReplies env _ _ _
  rw [if_neg ht]
  split
  · cases inTx with
    | false => exact .opened _ .ready (.prepare g) ⟨rfl,.inl ⟨rfl,rfl⟩⟩
    | true => exact .opened _ .txReady (.prepare g) ⟨rfl,.inr ⟨rfl,rfl⟩⟩
  · exact fail_runReplies env _ _ _

omit [JsonText] in
theorem handleSecurityCommand_runReplies (s : Session) (env : Env) (parsed : Except String SecurityCommand) (inTx : Bool) :
    RunReplies env (s.handleSecurityCommand env parsed inTx) := by
  unfold handleSecurityCommand
  split_ifs
  · exact fail_runReplies env _ _ _
  split
  · exact fail_runReplies env _ _ _
  split
  · exact fail_runReplies env _ _ _
  · rename_i h
    exact stream_runReplies _ _ (.command _ h)
  · rename_i h
    exact stream_runReplies _ _ (.command _ h)

theorem executeInTx_returns {s : Service} {id : ℕ} {writes : List Mutation} {r : Except ExecError ResultSet} {result : ResultSet}
    (h : (s.executeInTx id writes r).1 = .ok result) : r = .ok result := by
  unfold Service.executeInTx at h
  split_ifs at h
  simp only at h
  split at h
  · cases h
  · exact h

theorem executeInTx_runReplies (s : Session) (env : Env) : RunReplies env (s.executeInTx env) := by
  unfold executeInTx
  split
  · exact fail_runReplies env _ _ _
  split
  · rename_i hcall
    exact stream_runReplies _ _ (.inTx _ (executeInTx_returns (congrArg Prod.fst hcall)))
  · exact fail_runReplies env _ _ _

theorem executeAutocommit_runReplies (s : Session) (env : Env) (extra : Dict) : RunReplies env (s.executeAutocommit env extra) := by
  unfold executeAutocommit
  split
  · exact fail_runReplies env _ _ _
  simp only
  split
  · rename_i h
    exact stream_runReplies _ _ (.autocommit _ h)
  · exact fail_runReplies env _ _ _

theorem runQuery_runReplies (s : Session) (env : Env) (query : String) (parameters extra : Dict) (inTx : Bool) :
    RunReplies env (s.runQuery env query parameters extra inTx) := by
  unfold runQuery
  split
  · exact fail_runReplies env _ _ _
  simp only
  split
  · exact handleSecurityCommand_runReplies _ env _ inTx
  split
  · exact fail_runReplies env _ _ _
  split
  · exact handlePrepare_runReplies _ env _ _ _
  · exact executeInTx_runReplies _ env
  · exact executeAutocommit_runReplies _ env extra

theorem handleRun_runReplies (s : Session) (env : Env) (query : String) (parameters extra : Dict) :
    RunReplies env (s.handleRun env query parameters extra) := by
  simp only [handleRun]
  split_ifs
  · exact fail_runReplies env _ _ _
  · exact fail_runReplies env _ _ _
  · split
    · rename_i h
      exact checkTxDeadline_runReplies h
    · exact runQuery_runReplies _ env query parameters extra _
  · split
    · exact fail_runReplies env _ _ _
    · exact runQuery_runReplies _ env query parameters extra _

/-- A `RUN` that succeeds streams the rows of its query, and however the client then asks for them, until the stream ends,
none is lost between its messages. -/
theorem run_streams_all (s : Session) (env : Env) (query : String) (parameters extra : Dict) (md : Dict)
    (hrun : (s.handle env (.run query parameters extra)).1 = [.success md]) :
    ∃ rows drained, env.Returned rows ∧ Streaming (s.handle env (.run query parameters extra)).2 rows drained ∧
      ∀ asks, Ask.Until asks rows → LosesNothing (s.handle env (.run query parameters extra)).2 rows drained asks := by
  have hreplies : RunReplies env (s.dispatch env (.run query parameters extra)) := by
    simp only [handle] at hrun
    unfold dispatch at hrun ⊢
    split
    · rename_i hs
      simp [hs] at hrun
    · exact .failed _ rfl
    · rename_i hs
      simp [hs,dispatchFailed] at hrun
    · exact handleRun_runReplies s env query parameters extra
  cases hreplies with
  | failed md' h => exact absurd (h.symm.trans hrun) (by simp)
  | opened rows drained hrows hstreams =>
    have hnow : Streaming (s.handle env (.run query parameters extra)).2 rows drained := ⟨hstreams.pending,hstreams.state⟩
    exact ⟨rows,drained,hrows,hnow,fun _ h => streaming_loses_nothing hnow h⟩

end Session

end

section Sample
open Session
attribute [local instance] Json.compactText

/-- A query that returned three rows. -/
def threeRows : Env :=
  { denyAll with parse := fun _ => .ok ⟨[[.other]]⟩, autocommit := ([],.ok ⟨["n"],[[.integer 1],[.integer 2],[.integer 3]]⟩) }

theorem run_streams_all_sample :
    let s := { build 0 "Neo4j/5.26.0" "bolt-1" false false .single none 0 ⟨4,4⟩ (fun _ => {}) with state := .ready }
    let streaming := (s.handle threeRows (.run "UNWIND [1,2,3] AS n RETURN n" [] [])).2
    let asks : List Ask := [⟨denyAll,true,[("n",.integer 1)]⟩,⟨denyAll,false,[("n",.integer 1)]⟩,⟨denyAll,true,[]⟩]
    LosesNothing streaming [[.integer 1],[.integer 2],[.integer 3]] .ready asks ∧
      recordsOf (streaming.serve asks).1.flatten = [[.integer 1],[.integer 3]] := by
  intro s streaming asks
  obtain ⟨rows,drained,-,hstreams,hall⟩ :=
    run_streams_all s threeRows "UNWIND [1,2,3] AS n RETURN n" [] [] [("fields",.list [.string "n"])] rfl
  obtain rfl : [[.integer 1],[.integer 2],[.integer 3]] = rows := Option.some.inj hstreams.pending
  have hdrained : drained = .ready := by
    obtain ⟨-,h⟩ | ⟨h,-⟩ := hstreams.state
    · exact h
    · cases h
  have huntil : Ask.Until asks [[.integer 1],[.integer 2],[.integer 3]] := by
    intro before a after heq hne
    match before with
    | [] => exact absurd rfl hne
    | [_] =>
      obtain ⟨rfl,-⟩ := List.cons.inj heq
      decide
    | [_,_] =>
      obtain ⟨rfl,h⟩ := List.cons.inj heq
      obtain ⟨rfl,-⟩ := List.cons.inj h
      decide
    | _ :: _ :: _ :: before =>
      have hlen := congrArg List.length heq
      simp [asks] at hlen
  rw [hdrained] at hall
  exact ⟨hall asks huntil,by rw [(hall asks huntil).sent]; rfl⟩

end Sample
end Drevo.Bolt
