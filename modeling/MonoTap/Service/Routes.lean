import MonoTap.Document.Json
import MonoTap.Service.Preview
import MonoTap.Settings.Loading

/-!
# Routes

The requests that the service answers, and its answers. An engine is made when the first preview is
asked for, even if what it is asked with turns out to be wrong.
-/

set_option autoImplicit false

namespace MonoTap.Service

open Document (Checked PathStep Problem Value)
open Settings (LoadFault)

/-- A request: its method, its path and its body. -/
structure Request where
  method : String
  path : String
  body : String
  deriving DecidableEq, Repr

/-- A reply: its status and its body, if it has one. -/
structure Reply where
  status : Nat
  body : Option Value

/-- What the service can be asked for. -/
inductive Route where
  | health | lanes | preview
  deriving DecidableEq, Repr

namespace Route

/-- All routes. -/
def all : List Route := [.lanes, .preview, .health]

/-- The method of a route. -/
def method : Route → String
  | .health => "GET"
  | .lanes => "GET"
  | .preview => "POST"

/-- The path of a route. -/
def path : Route → String
  | .health => "/api/health"
  | .lanes => "/api/migration/lanes"
  | .preview => "/api/migration/preview"

/-- The route at a path, after which a line may end. -/
def ofPath? (path : String) : Option Route :=
  all.find? fun r => path == r.path || path == r.path ++ "\n"

theorem ofPath?_path (r : Route) : ofPath? r.path = some r := by
  cases r <;> decide

end Route

/-- A path with a slash more at its end, or with none if it has some. -/
def otherSlash (path : String) : String :=
  let cs := path.toList
  if cs.getLast? == some '/' then String.ofList (cs.reverse.dropWhile (· == '/')).reverse
  else path ++ "/"

/-- A reply that says in words what is wrong. -/
def detail (status : Nat) (message : String) : Reply :=
  ⟨status, some (.record [("detail", .text message)])⟩

/-- A problem as a value. -/
def problemValue (p : Problem) : Value :=
  .record [("loc", .list (p.path.map fun (s : PathStep) =>
      match s with
      | .field name => Value.text name
      | .index n => .int (n : Nat))),
    ("type", .text p.cause.code), ("msg", .text p.cause.message)]

/-- A reply that lists problems of the request. -/
def refusal (problems : List Problem) : Reply :=
  ⟨422, some (.record [("detail", .list (problems.map problemValue))])⟩

/-- Why the service breaks down. -/
inductive Breakdown where
  | settings (f : LoadFault)
  | lane (m : MissingLane)
  | engine (f : EngineFailure)
  deriving DecidableEq, Repr

/-- A service: the known lanes, how settings are loaded, and the engine once there is one. -/
structure Server where
  registry : Lane.Registry
  loadSettings : Except LoadFault Settings
  engine : Option Engine

/-- The engine, which is made if there is none yet. -/
def Server.demandEngine (s : Server) : Except Breakdown Engine :=
  match s.engine with
  | some engine => .ok engine
  | none => do
    let settings ← s.loadSettings.mapError .settings
    (Engine.standard s.registry settings).mapError .lane

/-- The value that the body of a request holds. Neither an empty body nor one that says nothing
counts. -/
def bodyValue (body : String) : Checked (Option Value) :=
  if body.isEmpty then .ok none
  else
    match Document.Json.parse body with
    | .ok .null => .ok none
    | .ok value => .ok (some value)
    | .error fault => Checked.problem [.field "body", .index fault.position] .malformed

/-- Replies to a request for a preview with an engine. -/
def replyPreview (engine : Engine) (body : Option Value) : Except Breakdown Reply :=
  match PreviewRequest.ofBody body with
  | .error problems => .ok (refusal problems)
  | .ok request =>
    match preview engine request with
    | .ok value => .ok ⟨200, some value⟩
    | .error (.unsupported u) => .ok (detail 400 u.message)
    | .error (.engine f) => .error (.engine f)

/-- Replies to a request at a route. -/
def Server.replyAt (s : Server) (route : Route) (body : String) :
    Except Breakdown (Reply × Server) :=
  match route with
  | .health =>
    .ok (⟨200, some (.record [("status", .text "ok"), ("service", .text "reactorloom")])⟩, s)
  | .lanes => .ok (⟨200, some (.record [("lanes", s.registry.descriptions)])⟩, s)
  | .preview =>
    match bodyValue body with
    | .error problems => .ok (refusal problems, s)
    | .ok value => do
      let engine ← s.demandEngine
      return (← replyPreview engine value, { s with engine := some engine })

/-- Replies to a request. A path that would do with another slash at its end is sent on to that. -/
def Server.reply (s : Server) (r : Request) : Except Breakdown (Reply × Server) :=
  match Route.ofPath? r.path with
  | some route =>
    if r.method == route.method then s.replyAt route r.body
    else .ok (detail 405 "Method Not Allowed", s)
  | none =>
    if r.path != "/" && (Route.ofPath? (otherSlash r.path)).isSome then .ok (⟨307, none⟩, s)
    else .ok (detail 404 "Not Found", s)

end MonoTap.Service
