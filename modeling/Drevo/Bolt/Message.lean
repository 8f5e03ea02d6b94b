import Drevo.Core.Engine

/-! The messages of a Bolt session, the values they carry, and what the server reads from
their dictionaries. -/
namespace Drevo.Bolt

/-- A PackStream value. A float is kept by its bits; a dictionary has its keys in order. -/
inductive Value where
  | null
  | boolean (b : Bool)
  | integer (i : Int64)
  | float (bits : BitVec 64)
  | string (s : String)
  | bytes (bs : List UInt8)
  | list (items : List Value)
  | dictionary (entries : List (String × Value))
  | struct (tag : UInt8) (fields : List Value)

abbrev Dict := List (String × Value)

/-- The protocol version, compared by major and then by minor number. -/
structure BoltVersion where
  major : ℕ
  minor : ℕ
  deriving DecidableEq

namespace BoltVersion

def atLeast (v : BoltVersion) (major minor : ℕ) : Bool := major < v.major || (v.major = major && minor ≤ v.minor)

end BoltVersion

inductive ClientMessage where
  | hello (extra : Dict)
  | goodbye
  | reset
  | run (query : String) (parameters extra : Dict)
  | begin (extra : Dict)
  | commit
  | rollback
  | discard (extra : Dict)
  | pull (extra : Dict)
  | logon (auth : Dict)
  | logoff
  | telemetry (api : Value)

inductive ServerMessage where
  | success (metadata : Dict)
  | failure (metadata : Dict)
  | record (fields : List Value)
  | ignored

inductive State where
  | connected | authentication | ready | streaming | txReady | txStreaming | failed | defunct
  deriving DecidableEq

namespace Codes

def requestInvalid := "Neo.ClientError.Request.Invalid"
def protocolViolation := "Neo.ClientError.Request.InvalidFormat"
def syntaxError := "Neo.ClientError.Statement.SyntaxError"
def semanticError := "Neo.ClientError.Statement.SemanticError"
def storage := "Neo.DatabaseError.Statement.ExecutionFailed"
def timedOut := "Neo.ClientError.Transaction.TransactionTimedOut"
def timedOutClient := "Neo.ClientError.Transaction.TransactionTimedOutClientConfiguration"
def terminated := "Neo.ClientError.Transaction.Terminated"
def unauthorized := "Neo.ClientError.Security.Unauthorized"
def credentialsExpired := "Neo.ClientError.Security.CredentialsExpired"
def transientOutdated := "Neo.TransientError.Transaction.Outdated"
def transientPreparedPending := "Neo.TransientError.Transaction.LockAcquisitionTimeout"
def forbiddenDueToTransactionType := "Neo.ClientError.Transaction.ForbiddenDueToTransactionType"
def forbidden := "Neo.ClientError.Security.Forbidden"
def forbiddenOnReadOnlyDatabase := "Neo.ClientError.General.ForbiddenOnReadOnlyDatabase"
def transactionOutOfMemory := "Neo.ClientError.General.TransactionOutOfMemoryError"
def transactionHookFailed := "Neo.ClientError.Transaction.TransactionHookFailed"
def constraintFailed := "Neo.ClientError.Schema.ConstraintValidationFailed"
def databaseNotFound := "Neo.ClientError.Database.DatabaseNotFound"

end Codes

def failureMetadata (code message : String) : Dict := [("code",.string code),("message",.string message)]

def stringField (extra : Dict) (key : String) : Option String :=
  match extra.lookup key with
  | some (.string s) => some s
  | _ => none

def extractN (extra : Dict) : Int64 :=
  match extra.lookup "n" with
  | some (.integer i) => i
  | _ => -1

/-- The client's time limit in milliseconds. The text of a value in a message is `debug`. -/
def extractTxTimeout (debug : Value → String) (extra : Dict) : Except String (Option ℕ) :=
  match extra.lookup "tx_timeout" with
  | none => .ok none
  | some .null => .ok none
  | some (.integer ms) =>
    if ms = 0 then .ok none
    else if 0 < ms then .ok (some ms.toInt.toNat)
    else .error ("tx_timeout must be a non-negative number of milliseconds, got " ++ debug (.integer ms))
  | some other => .error ("tx_timeout must be a non-negative number of milliseconds, got " ++ debug other)

def extractIsolation (debug : Value → String) (extra : Dict) : Except String (Option Isolation) :=
  match extra.lookup "tx_metadata" with
  | some (.dictionary entries) =>
    match entries.lookup "drevo.isolation" with
    | none => .ok none
    | some .null => .ok none
    | some (.string level) =>
      if level.map Char.toLower = "snapshot" then .ok (some .snapshot)
      else if level.map Char.toLower = "serializable" then .ok (some .serializable)
      else .error ("drevo.isolation must be `snapshot` or `serializable`, got `" ++ level ++ "`")
    | some other =>
      .error ("drevo.isolation must be a string (`snapshot` or `serializable`), got " ++ debug other)
  | _ => .ok none

def extractDb (extra : Dict) : Option String :=
  match extra.lookup "db" with
  | some (.string s) => if s.isEmpty then none else some s
  | _ => none

end Drevo.Bolt
