import DocBase.Access.Subject
import DocBase.Lock.State
import DocBase.Query.Context
import DocBase.Toml.Document
/-!
# Settings

What is configured for a store: how locks are waited for, how queries are compiled and run, and the
user that commands run as. Every setting has a default.
-/

namespace DocBase

structure LockSettings where
  /-- Milliseconds; zero waits without end. -/
  timeout : Nat := 30000
  refuseUpgrade : Bool := false
  reportUpgrade : Bool := false
deriving DecidableEq, Repr

structure QuerySettings where
  rewriting : Bool := true
  raiseOnFailure : Bool := false
  checkPermissions : Bool := true
deriving DecidableEq, Repr

structure Settings where
  locks : LockSettings := {}
  queries : QuerySettings := {}
  defaultUser : String := guestUser
deriving DecidableEq, Repr

namespace LockSettings

def options (l : LockSettings) : Lock.Options where
  timeout := if l.timeout = 0 then none else some l.timeout
  refuseUpgrade := l.refuseUpgrade
  reportUpgrade := l.reportUpgrade

def ofValue? (v : Toml.Value) : Option LockSettings := do
  let f ← v.fields? ["timeout-ms", "upgrade-check", "warn-wait-on-read-for-write"]
  let d : LockSettings := {}
  let timeout ← f.withDefault "timeout-ms" Toml.Value.nat? d.timeout
  let refuseUpgrade ← f.withDefault "upgrade-check" Toml.Value.boolean? d.refuseUpgrade
  let reportUpgrade ←
    f.withDefault "warn-wait-on-read-for-write" Toml.Value.boolean? d.reportUpgrade
  pure { timeout, refuseUpgrade, reportUpgrade }

end LockSettings

namespace QuerySettings

/-- A context in which a query is compiled. -/
def static (q : QuerySettings) : Query.StaticContext := { rewriting := q.rewriting }

/-- A context in which a query is run. -/
def dynamic (q : QuerySettings) : Query.DynamicContext where
  checkPermissions := q.checkPermissions
  raiseOnFailure := q.raiseOnFailure

def ofValue? (v : Toml.Value) : Option QuerySettings := do
  let f ← v.fields?
    ["enable-query-rewriting", "raise-error-on-failed-retrieval", "check-permissions"]
  let d : QuerySettings := {}
  let rewriting ← f.withDefault "enable-query-rewriting" Toml.Value.boolean? d.rewriting
  let raiseOnFailure ←
    f.withDefault "raise-error-on-failed-retrieval" Toml.Value.boolean? d.raiseOnFailure
  let checkPermissions ← f.withDefault "check-permissions" Toml.Value.boolean? d.checkPermissions
  pure { rewriting, raiseOnFailure, checkPermissions }

end QuerySettings

namespace Settings

def userOfValue? (v : Toml.Value) : Option String := do
  let f ← v.fields? ["default-user"]
  f.withDefault "default-user" Toml.Value.text? guestUser

def ofValue? (v : Toml.Value) : Option Settings := do
  let f ← v.fields? ["lock-manager", "xquery", "security"]
  let locks ← f.withDefault "lock-manager" LockSettings.ofValue? {}
  let queries ← f.withDefault "xquery" QuerySettings.ofValue? {}
  let defaultUser ← f.withDefault "security" userOfValue? guestUser
  pure { locks, queries, defaultUser }

/-- Reads settings, unless the text is malformed or holds something that is no setting. -/
def parse (text : String) : Option Settings := (Toml.parse text).bind ofValue?

end Settings
end DocBase
