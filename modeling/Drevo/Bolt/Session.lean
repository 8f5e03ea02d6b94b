import Drevo.Bolt.Message
import Drevo.Bolt.Service

/-! One client's session: the state machine that answers its messages. What a message draws
from its surroundings (the clock, the credential checks, the parser, what a statement writes
and returns) is its environment, about which nothing is assumed. -/
namespace Drevo.Bolt
open Lib

inductive AuthOutcome where
  | authenticated
  | denied (reason : String)

structure SignedIn where
  name : String
  passwordChangeRequired : Bool

/-- A refused user-management command or login, by its status code. -/
structure SecurityError where
  code : String
  message : String

/-- The user-management commands; the session tells one of them from the rest. -/
inductive SecurityCommand where
  | alterCurrentUserPassword
  | other

/-- The argument of a procedure call. -/
inductive Expression where
  | string (s : String)
  | parameter (name : String)
  | other

inductive Clause where
  | call (name : List String) (args : List Expression)
  | other

/-- A parsed query: the clauses of each of its parts. -/
structure Query where
  parts : List (List Clause)

/-- A result set, its rows as they go over the wire. -/
structure ResultSet where
  columns : List String
  rows : List (List Value)

inductive Source where
  | server | client

/-- When a transaction has to be finished, and whose limit that is. -/
structure Deadline where
  at_ : ℕ
  limitMs : ℕ
  source : Source

namespace Deadline

def client (now limit : ℕ) (server : Option ℕ) : Deadline :=
  match server with
  | some cap => if cap < limit then ⟨now+cap,cap,.server⟩ else ⟨now+limit,limit,.client⟩
  | none => ⟨now+limit,limit,.client⟩

def expired (d : Deadline) (now : ℕ) : Bool := d.at_ ≤ now

def error (d : Deadline) : ExecError :=
  match d.source with
  | .server => .timeout d.limitMs
  | .client => .clientTimeout d.limitMs

end Deadline

/-- A transaction by the database it was opened on and its id there. -/
structure Tx where
  service : ℕ
  id : ℕ
  deriving DecidableEq

/-- The session's open transaction. -/
structure ActiveTx where
  tx : Tx
  database : String
  deadline : Option Deadline

/-- How a transaction ended. -/
inductive Fate where
  | committed
  | prepared (gid : String)
  | rolledBack
  deriving DecidableEq

/-- How a `db` selector names a database: not at all, or through the registry. -/
inductive DbResolver where
  | single
  | registry (defaultName : String)

/-- What handling one message draws from its surroundings. `now` and `later` are the clock
before and after a statement runs. -/
structure Env where
  now : ℕ
  later : ℕ
  wallClock : ℤ
  debug : Value → String
  quote : String → String
  authenticate : Dict → AuthOutcome
  login : Option String → Option String → Option String → Except SecurityError SignedIn
  database : String → Option ℕ
  mayPrepare : Bool
  params : Dict → Except String Dict
  securityParse : String → Option (Except String SecurityCommand)
  securityResult : Except SecurityError ResultSet
  parse : String → Except String Query
  statement : List Mutation × Except ExecError ResultSet
  autocommit : List Action × Except ExecError ResultSet
  before : List Mutation × Option String
  io : Bool
  ioError : String

/-- A session. The databases are shared with other sessions; `service` is the default one.
`begun`, `ended` and `executed` record the transactions it opened, how each ended and the
queries it took up to run; no handler reads them. -/
structure Session where
  service : ℕ := 0
  state : State := .connected
  serverAgent : String
  connectionId : String
  pending : Option (List (List Value)) := none
  authenticator : Bool
  requiresLogin : Bool
  nativeTx : Option ActiveTx := none
  preparedGid : Option String := none
  signedIn : Option SignedIn := none
  resolver : DbResolver := .single
  timedOut : Option Deadline := none
  idleTimeout : Option ℕ := none
  idleSince : ℕ := 0
  version : BoltVersion
  services : ℕ → Service
  begun : List Tx := []
  ended : List (Tx × Fate) := []
  executed : List String := []

def ExecError.code : ExecError → String
  | .transactionTooLarge _ => Codes.transactionOutOfMemory
  | .timeout _ => Codes.timedOut
  | .clientTimeout _ => Codes.timedOutClient
  | .terminated => Codes.terminated
  | .other code _ => code

def ExecError.message : ExecError → String
  | .transactionTooLarge limit =>
    s!"storage error: the transaction reached its limit of {limit} uncommitted writes; commit in smaller transactions or raise the limit"
  | .timeout limitMs => s!"statement exceeded the {limitMs} ms statement timeout"
  | .clientTimeout limitMs => s!"the transaction exceeded the {limitMs} ms timeout the client set"
  | .terminated => "the transaction has been terminated"
  | .other _ message => message

def readOnlyMessage := "the database is read-only"

def conflictMessage := "transaction conflict: the graph changed since the transaction began; retry"

def pendingMessage (gids : List String) : String :=
  "writes are paused while prepared transaction(s) " ++ ", ".intercalate gids ++ " await resolution; retry"

def violationMessage (v : ConstraintViolation) : String := "constraint on `" ++ v.kind ++ "` violated: " ++ v.message

def CommitFailure.report (env : Env) : CommitFailure → String × String
  | .engine .conflict => (Codes.transientOutdated,conflictMessage)
  | .engine (.constraint v) => (Codes.constraintFailed,violationMessage v)
  | .engine .io => (Codes.storage,"write-ahead log write failed: " ++ env.ioError)
  | .engine .unknownTransaction =>
    (Codes.storage,"write-ahead log write failed: unknown or already-closed transaction")
  | .engine (.preparedPending gids) => (Codes.transientPreparedPending,pendingMessage gids)
  | .engine .readOnly => (Codes.forbiddenOnReadOnlyDatabase,readOnlyMessage)
  | .terminated => (Codes.storage,"write-ahead log write failed: the transaction has been terminated")
  | .rejected reason => (Codes.transactionHookFailed,"commit refused: " ++ reason)

def PrepareFailure.report (env : Env) : PrepareFailure → String × String
  | .engine .unknownTransaction => (Codes.semanticError,"unknown or already-closed transaction")
  | .engine .conflict => (Codes.transientOutdated,conflictMessage)
  | .engine (.constraint v) => (Codes.constraintFailed,violationMessage v)
  | .engine (.duplicateGid gid) => (Codes.semanticError,"a transaction is already prepared as " ++ env.quote gid)
  | .engine (.preparedPending gids) => (Codes.transientPreparedPending,pendingMessage gids)
  | .engine .io => (Codes.storage,"write-ahead log write failed: " ++ env.ioError)
  | .engine .readOnly => (Codes.forbiddenOnReadOnlyDatabase,readOnlyMessage)
  | .rejected reason => (Codes.transactionHookFailed,"prepare refused: " ++ reason)

def prepareCall (query : Query) : Option Expression :=
  match query.parts with
  | [[.call name [gid]]] => if name = ["drevo","tx","prepare"] then some gid else none
  | _ => none

/-- The rows a `PULL` or `DISCARD` of `n` takes after it took `taken` already, the rows it
leaves, and whether the stream is over. -/
def drain (n : Int64) (taken : ℕ) (rows : List (List Value)) : List (List Value) × List (List Value) × Bool :=
  if 0 ≤ n ∧ n.toInt ≤ taken then ([],rows,rows.isEmpty)
  else
    match rows with
    | [] => ([],[],true)
    | row :: rest =>
      let r := drain n (taken+1) rest
      (row :: r.1,r.2)

namespace Session

def fail (s : Session) (code message : String) : List ServerMessage × Session :=
  ([.failure (failureMetadata code message)],{ s with state := .failed })

def requestInvalid (s : Session) (message : String) : List ServerMessage × Session :=
  s.fail Codes.requestInvalid message

def execFail (s : Session) (e : ExecError) : List ServerMessage × Session := s.fail e.code e.message

def logsInWithLogon (s : Session) : Bool := s.version.atLeast 5 1

def homeDatabase (s : Session) : String :=
  match s.resolver with
  | .single => "drevo"
  | .registry defaultName => defaultName

def databaseName (s : Session) (db : Option String) : String :=
  match s.resolver,db with
  | .registry _,some name => if name.isEmpty then s.homeDatabase else name
  | _,_ => s.homeDatabase

def resolveService (s : Session) (env : Env) (db : Option String) : Except String ℕ :=
  match s.resolver,db with
  | .registry defaultName,some name =>
    if name.isEmpty || name = defaultName then .ok s.service
    else
      match env.database name with
      | some service => .ok service
      | none => .error ("database `" ++ name ++ "` does not exist")
  | _,_ => .ok s.service

/-! ## Logging in -/

def logIn (s : Session) (env : Env) (auth : Dict) : Except (List ServerMessage) Unit × Session :=
  let deny (code message : String) : Except (List ServerMessage) Unit × Session :=
    (.error [.failure (failureMetadata code message)],{ s with state := .defunct })
  if s.authenticator then
    match env.authenticate auth with
    | .denied reason => deny Codes.unauthorized reason
    | .authenticated => (.ok (),s)
  else if s.requiresLogin then
    match env.login (stringField auth "scheme") (stringField auth "principal") (stringField auth "credentials") with
    | .ok user => (.ok (),{ s with signedIn := some user })
    | .error e => deny e.code e.message
  else (.ok (),s)

def handleLogon (s : Session) (env : Env) (auth : Dict) : List ServerMessage × Session :=
  match s.logIn env auth with
  | (.error failure,s) => (failure,s)
  | (.ok (),s) => ([.success []],{ s with state := .ready })

def handleLogoff (s : Session) : List ServerMessage × Session :=
  if !s.logsInWithLogon then s.requestInvalid "LOGOFF needs Bolt 5.1 or later"
  else if s.state ≠ .ready then s.requestInvalid "LOGOFF is only accepted outside a transaction"
  else ([.success []],{ s with signedIn := none, state := .authentication })

def handleTelemetry (s : Session) : List ServerMessage × Session :=
  if !s.version.atLeast 5 4 then s.requestInvalid "TELEMETRY needs Bolt 5.4 or later"
  else ([.success []],s)

def handleHello (s : Session) (env : Env) (extra : Dict) : List ServerMessage × Session :=
  let greeting : List ServerMessage :=
    [.success [("connection_id",.string s.connectionId),("server",.string s.serverAgent)]]
  if s.state ≠ .connected then s.fail Codes.requestInvalid "HELLO received outside CONNECTED state"
  else if s.logsInWithLogon then (greeting,{ s with state := .authentication })
  else
    match s.logIn env extra with
    | (.error failure,s) => (failure,s)
    | (.ok (),s) => (greeting,{ s with state := .ready })

def mustChangePassword (s : Session) : Bool := (s.signedIn.map SignedIn.passwordChangeRequired).getD false

def changePasswordFirst :=
  "The credentials you provided were valid, but must be changed before you can use this instance. Run ALTER CURRENT USER SET PASSWORD FROM <current> TO <new>."

def credentialsExpired (s : Session) : List ServerMessage × Session :=
  s.fail Codes.credentialsExpired changePasswordFirst

/-! ## Calls on a transaction -/

/-- Call the database of a transaction; if the call ended the transaction, record its fate. -/
def call {α : Type} (s : Session) (t : Tx) (f : Service → α × Service) (fate : α → Fate) : α × Session :=
  let r := f (s.services t.service)
  (r.1,{ s with
    services := Function.update s.services t.service r.2
    ended :=
      if (s.services t.service).registered t.id && !r.2.registered t.id then s.ended ++ [(t,fate r.1)]
      else s.ended })

def rollbackTx (s : Session) (t : Tx) : Session := (s.call t (fun d => d.rollbackTx t.id) (fun _ => .rolledBack)).2

def rollBackOwnTx (s : Session) : Session :=
  match s.nativeTx with
  | none => s
  | some a => { s with nativeTx := none }.rollbackTx a.tx

/-- The failure of a transaction that ran past its deadline, now or while the client was
silent; the transaction is rolled back. -/
def checkTxDeadline (s : Session) (env : Env) : Option (List ServerMessage) × Session :=
  let s :=
    match (s.nativeTx.bind ActiveTx.deadline).filter (fun d => d.expired env.now) with
    | some deadline => { s.rollBackOwnTx with timedOut := some deadline }
    | none => s
  match s.timedOut with
  | none => (none,s)
  | some deadline =>
    let r := { s with timedOut := none }.execFail deadline.error
    (some r.1,r.2)

def handleGoodbye (s : Session) : List ServerMessage × Session :=
  ([],{ s.rollBackOwnTx with state := .defunct, pending := none })

def handleReset (s : Session) : List ServerMessage × Session :=
  ([.success []],{ { s with pending := none }.rollBackOwnTx with timedOut := none, state := .ready })

def handleBegin (s : Session) (env : Env) (extra : Dict) : List ServerMessage × Session :=
  if s.mustChangePassword then s.credentialsExpired
  else if s.state ≠ .ready then
    s.fail Codes.requestInvalid "BEGIN outside READY state — explicit transactions cannot nest"
  else
    match s.resolveService env (extractDb extra) with
    | .error message => s.fail Codes.databaseNotFound message
    | .ok service =>
      match extractTxTimeout env.debug extra with
      | .error message => s.fail Codes.requestInvalid message
      | .ok limit =>
        match extractIsolation env.debug extra with
        | .error message => s.fail Codes.requestInvalid message
        | .ok isolation =>
          let r := (s.services service).beginTxWith isolation
          let deadline := limit.map (fun limit => Deadline.client env.now limit (s.services service).statementTimeout)
          ([.success []],{ s with
            services := Function.update s.services service r.2
            nativeTx := some ⟨⟨service,r.1⟩,s.databaseName (extractDb extra),deadline⟩
            begun := s.begun ++ [⟨service,r.1⟩]
            timedOut := none
            state := .txReady })

variable [JsonText]

def handleCommit (s : Session) (env : Env) : List ServerMessage × Session :=
  if s.state ≠ .txReady then s.fail Codes.requestInvalid "COMMIT without an active transaction"
  else if s.preparedGid.isSome then ([.success []],{ s with preparedGid := none, state := .ready })
  else
    match s.checkTxDeadline env with
    | (some failure,s) => (failure,s)
    | (none,s) =>
      match s.nativeTx with
      | none => s.fail Codes.storage "COMMIT without an active transaction"
      | some a =>
        let s := { s with nativeTx := none }
        if (s.services a.tx.service).txTerminated a.tx.id then
          (s.rollbackTx a.tx).fail Codes.terminated "the transaction has been terminated"
        else
          match s.call a.tx (fun d => d.commitTx a.tx.id env.before env.io)
            (fun r => if r.isOk then .committed else .rolledBack) with
          | (.ok (),s) => ([.success []],{ s with state := .ready })
          | (.error e,s) => s.fail (e.report env).1 (e.report env).2

omit [JsonText] in
def handleRollback (s : Session) : List ServerMessage × Session :=
  if s.state ≠ .txReady then s.fail Codes.requestInvalid "ROLLBACK without an active transaction"
  else if s.preparedGid.isSome then ([.success []],{ s with preparedGid := none, state := .ready })
  else if s.timedOut.isSome then
    ([.success []],{ s with timedOut := none, state := .ready })
  else
    match s.nativeTx with
    | none => s.fail Codes.storage "ROLLBACK without an active transaction"
    | some a => ([.success []],{ { s with nativeTx := none }.rollbackTx a.tx with state := .ready })

def handlePrepare (s : Session) (env : Env) (gidExpr : Expression) (params : Dict) (inTx : Bool) :
    List ServerMessage × Session :=
  let gid :=
    match gidExpr with
    | .string gid => some gid
    | .parameter name => stringField params name
    | .other => none
  match gid with
  | none =>
    s.fail Codes.semanticError
      "drevo.tx.prepare takes the global transaction id as a string literal or $parameter"
  | some gid =>
    if !env.mayPrepare then
      s.fail Codes.forbidden
        "`drevo.tx.prepare` is an administration procedure and needs EXECUTE ADMIN PROCEDURES"
    else
      match s.checkTxDeadline env with
      | (some failure,s) => (failure,s)
      | (none,s) =>
        match s.nativeTx with
        | none => s.fail Codes.storage "no open transaction to prepare"
        | some a =>
          let s := { s with nativeTx := none }
          if (s.services a.tx.service).txTerminated a.tx.id then
            (s.rollbackTx a.tx).fail Codes.terminated "the transaction has been terminated"
          else
            match s.call a.tx (fun d => d.prepareTx a.tx.id gid env.before env.wallClock env.io)
              (fun r => if r.isOk then .prepared gid else .rolledBack) with
            | (.ok (),s) =>
              ([.success [("fields",.list [.string "gid"])]],{ s with
                preparedGid := some gid
                pending := some [[.string gid]]
                state := if inTx then .txStreaming else .streaming })
            | (.error e,s) => s.fail (e.report env).1 (e.report env).2

omit [JsonText] in
def stream (s : Session) (inTx : Bool) (result : ResultSet) : List ServerMessage × Session :=
  ([.success [("fields",.list (result.columns.map .string))]],
    { s with pending := some result.rows, state := if inTx then .txStreaming else .streaming })

omit [JsonText] in
def handleSecurityCommand (s : Session) (env : Env) (parsed : Except String SecurityCommand) (inTx : Bool) :
    List ServerMessage × Session :=
  if inTx then
    s.fail Codes.forbiddenDueToTransactionType
      "user management commands change the server's users at once and cannot run inside an explicit transaction; run them in auto-commit mode"
  else
    match parsed with
    | .error message => s.fail Codes.syntaxError message
    | .ok command =>
      match env.securityResult,command with
      | .error e,_ => s.fail e.code e.message
      | .ok result,.alterCurrentUserPassword =>
        let s := { s with signedIn := s.signedIn.map (fun u : SignedIn => { u with passwordChangeRequired := false }) }
        s.stream false result
      | .ok result,.other => s.stream false result

def executeInTx (s : Session) (env : Env) : List ServerMessage × Session :=
  match s.nativeTx with
  | none => s.fail Codes.storage "RUN in transaction state without an open transaction"
  | some a =>
    match s.call a.tx (fun d => d.executeInTx a.tx.id env.statement.1 env.statement.2) (fun _ => .rolledBack) with
    | (.ok result,s) => s.stream true result
    | (.error e,s) =>
      let expired := ((s.nativeTx.bind ActiveTx.deadline).map (fun d => d.expired env.later)).getD false
      (if expired then s.rollBackOwnTx else s).execFail e

def executeAutocommit (s : Session) (env : Env) (extra : Dict) : List ServerMessage × Session :=
  match s.resolveService env (extractDb extra) with
  | .error message => s.fail Codes.databaseNotFound message
  | .ok service =>
    let s := { s with
      services := Function.update s.services service ((s.services service).runActions env.autocommit.1) }
    match env.autocommit.2 with
    | .ok result => s.stream false result
    | .error e =>
      let expired := ((s.nativeTx.bind ActiveTx.deadline).map (fun d => d.expired env.later)).getD false
      (if expired then s.rollBackOwnTx else s).execFail e

/-- A statement that passed the checks of the session. -/
def runQuery (s : Session) (env : Env) (query : String) (parameters extra : Dict) (inTx : Bool) :
    List ServerMessage × Session :=
  match env.params parameters with
  | .error message => s.fail Codes.protocolViolation message
  | .ok params =>
    let taken := { s with executed := s.executed ++ [query] }
    match env.securityParse query with
    | some parsed => taken.handleSecurityCommand env parsed inTx
    | none =>
      match env.parse query with
      | .error message => s.fail Codes.syntaxError message
      | .ok ast =>
        let s := taken
        match inTx,prepareCall ast with
        | true,some gidExpr => s.handlePrepare env gidExpr params inTx
        | true,none => s.executeInTx env
        | false,_ => s.executeAutocommit env extra

def handleRun (s : Session) (env : Env) (query : String) (parameters extra : Dict) :
    List ServerMessage × Session :=
  if s.state ≠ .ready ∧ s.state ≠ .txReady then
    s.fail Codes.requestInvalid "RUN outside READY / TX_READY state"
  else
    let inTx := decide (s.state = .txReady)
    let changesOwnPassword :=
      match env.securityParse query with
      | some (.ok .alterCurrentUserPassword) => true
      | _ => false
    if s.mustChangePassword && !changesOwnPassword then s.credentialsExpired
    else if inTx then
      match s.checkTxDeadline env with
      | (some failure,s) => (failure,s)
      | (none,s) => s.runQuery env query parameters extra inTx
    else
      match extractTxTimeout env.debug extra with
      | .error message => s.fail Codes.requestInvalid message
      | .ok _ => s.runQuery env query parameters extra inTx

omit [JsonText] in
/-- Take rows from the pending stream and answer; a drained stream ends in state `drained`. -/
def takeRows (s : Session) (sends : Bool) (n : Int64) (rows : List (List Value)) (drained : State) :
    List ServerMessage × Session :=
  let r := drain n 0 rows
  let records := if sends then r.1.map ServerMessage.record else []
  if r.2.2 then
    (records ++ [.success [("has_more",.boolean false),("type",.string "rw")]],
      { s with pending := none, state := drained })
  else (records ++ [.success [("has_more",.boolean true)]],{ s with pending := some r.2.1 })

omit [JsonText] in
/-- `PULL` sends the rows it takes, `DISCARD` does not. -/
def handleStream (s : Session) (name : String) (sends : Bool) (extra : Dict) : List ServerMessage × Session :=
  match s.state,s.pending with
  | .streaming,some rows => s.takeRows sends (extractN extra) rows .ready
  | .txStreaming,some rows => s.takeRows sends (extractN extra) rows .txReady
  | _,_ => { s with pending := none }.fail Codes.requestInvalid (name ++ " without an active result stream")

omit [JsonText] in
def handlePull (s : Session) (extra : Dict) : List ServerMessage × Session := s.handleStream "PULL" true extra

omit [JsonText] in
def handleDiscard (s : Session) (extra : Dict) : List ServerMessage × Session :=
  s.handleStream "DISCARD" false extra

/-! ## The state machine -/

/-- The messages of a session that is neither failed nor waiting for a login. -/
def dispatchOpen (s : Session) (env : Env) : ClientMessage → List ServerMessage × Session
  | .hello extra => s.handleHello env extra
  | .goodbye => s.handleGoodbye
  | .reset => s.handleReset
  | .run query parameters extra => s.handleRun env query parameters extra
  | .pull extra => s.handlePull extra
  | .discard extra => s.handleDiscard extra
  | .begin extra => s.handleBegin env extra
  | .commit => s.handleCommit env
  | .rollback => s.handleRollback
  | .logon _ =>
    s.requestInvalid
      (if s.logsInWithLogon then "LOGON is only accepted right after HELLO or LOGOFF"
      else "LOGON needs Bolt 5.1 or later")
  | .logoff => s.handleLogoff
  | .telemetry _ => s.handleTelemetry

omit [JsonText] in
/-- From 5.1: nothing but `LOGON` or `GOODBYE` before logging in. -/
def dispatchAuthentication (s : Session) (env : Env) : ClientMessage → List ServerMessage × Session
  | .logon auth => s.handleLogon env auth
  | .goodbye => s.handleGoodbye
  | _ =>
    ([.failure (failureMetadata Codes.requestInvalid "log in with LOGON before sending anything else")],
      { s with state := .defunct })

omit [JsonText] in
/-- A failed session ignores everything but `RESET` and `GOODBYE`. -/
def dispatchFailed (s : Session) : ClientMessage → List ServerMessage × Session
  | .reset => s.handleReset
  | .goodbye => s.handleGoodbye
  | _ => ([.ignored],s)

def dispatch (s : Session) (env : Env) (msg : ClientMessage) : List ServerMessage × Session :=
  match s.state with
  | .defunct => ([.ignored],s)
  | .authentication => s.dispatchAuthentication env msg
  | .failed => s.dispatchFailed msg
  | _ => s.dispatchOpen env msg

def handle (s : Session) (env : Env) (msg : ClientMessage) : List ServerMessage × Session :=
  let r := s.dispatch env msg
  (r.1,{ r.2 with idleSince := env.later })

omit [JsonText] in
def onQuiet (s : Session) (now : ℕ) : Bool × Session :=
  match s.nativeTx with
  | none => (true,s)
  | some a =>
    match a.deadline.filter (fun d => d.expired now) with
    | some deadline => (true,{ s.rollBackOwnTx with timedOut := some deadline })
    | none =>
      if (s.idleTimeout.map (fun limit => decide (limit ≤ now - s.idleSince))).getD false then
        (false,{ s.rollBackOwnTx with pending := none, state := .defunct })
      else (true,s)

omit [JsonText] in
/-- The connection is gone. -/
def drop (s : Session) : Session := s.rollBackOwnTx

def build (service : ℕ) (serverAgent connectionId : String) (authenticator requiresLogin : Bool)
    (resolver : DbResolver) (idleTimeout : Option ℕ) (idleSince : ℕ) (version : BoltVersion)
    (services : ℕ → Service) : Session :=
  { service, serverAgent, connectionId, authenticator, requiresLogin, resolver, idleTimeout, idleSince,
    version, services }

end Session

/-- What happens to a session: a message of its client, a long silence, something that another
client does to a shared database, a transaction terminated by an administrator. -/
inductive Event where
  | message (env : Env) (msg : ClientMessage)
  | quiet (now : ℕ)
  | elsewhere (service : ℕ) (a : Action)
  | terminate (service id : ℕ)

namespace Session
variable [JsonText]

omit [JsonText] in
/-- Another client does not hold the id of this session's transaction. -/
def owns (s : Session) (service : ℕ) (a : Action) : Bool :=
  match s.nativeTx,a.tx with
  | some active,some id => active.tx = ⟨service,id⟩
  | _,_ => false

def step (s : Session) : Event → Session
  | .message env msg => (s.handle env msg).2
  | .quiet now => (s.onQuiet now).2
  | .elsewhere service a =>
    if s.owns service a then s
    else { s with services := Function.update s.services service ((s.services service).runActions [a]) }
  | .terminate service id =>
    { s with services := Function.update s.services service ((s.services service).terminate id) }

def run (s : Session) (es : List Event) : Session := es.foldl step s

@[simp] theorem run_nil (s : Session) : s.run [] = s := rfl

theorem run_snoc (s : Session) (es : List Event) (e : Event) : s.run (es ++ [e]) = (s.run es).step e := by
  simp [run]

end Session
end Drevo.Bolt
