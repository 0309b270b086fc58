import XyzDB.Server.Http

/-!
# Connections and the token

The first byte of a connection selects what is spoken: HTTP, the auth frame, or a version of the
wire protocol. A server with a token lets nobody past the handshake who has not shown it; of the
unauthenticated requests only the liveness probes are answered.

What the server asks of the engine is a `Service` over an arbitrary type of engine states, so
that what is proved here holds of every engine. `Served` has what came of a connection: the
engine afterwards, the bytes that were sent, and what was executed.

A stream that does not present the token executes nothing, leaves the engine as it is, and is
answered with bytes that do not depend on the engine, the answer to a readiness probe apart
(`unauthenticated_stream_gated`).
-/

namespace XyzDB.Server

open Talk Engine

/-- What a client can have executed. -/
inductive Action where
  | statement (query : Text) (params : Option (List UInt8))
  | bulkInsert (lobe : Text) (frame : V3BatchFrame)
  | snapshot (name : Text)

structure Service (σ : Type) where
  /-- `run` or `run_with_params`, with the result in the format asked for: status and payload. -/
  execute : σ → Text → Option (List UInt8) → UInt8 → σ × UInt8 × List UInt8
  /-- `handle_streaming_scan`: the chunks, and whether the connection goes on. -/
  streamScan : σ → Text → UInt8 → σ × List UInt8 × Bool
  /-- One frame of a bulk load, and its answer; a failure ends the load. -/
  executeBulkInsert : σ → Text → V3BatchFrame → Option (σ × List UInt8)
  createSnapshot : σ → Text → σ × UInt8 × List UInt8
  statsJson : σ → List UInt8
  statsPrometheus : σ → List UInt8
  lastSuccessfulSync : σ → ℕ
  operatorHtml : List UInt8
  engineVersion : Text

structure Served (σ : Type) where
  engine : σ
  sent : List UInt8
  executed : List Action

namespace Served

variable {σ : Type}

/-- A connection that ends here. -/
def close (engine : σ) (sent : List UInt8) : Served σ := ⟨engine, sent, []⟩

/-- What comes of a connection that goes on. -/
def andThen (r : Served σ) (next : σ → Served σ) : Served σ :=
  let r' := next r.engine
  ⟨r'.engine, r.sent ++ r'.sent, r.executed ++ r'.executed⟩

end Served

section

variable {σ : Type} (srv : Service σ) (std : CharTable) (now : ℕ)

/-- The upper-cased text is one of the words. -/
def isOneOf (upper : Text) (words : List String) : Bool := words.any fun w => w.toList == upper

section

variable (query : Text)

def isLivenessProbe : Bool :=
  isOneOf (toUppercase std query) ["/HEALTH", "HEALTH", "/READY", "READY"]

def isProbeQuery : Bool :=
  isOneOf (toUppercase std query)
    ["/HEALTH", "HEALTH", "/READY", "READY", "STATS", "SHOW STATS", "/METRICS", "METRICS"]

def readinessResponse (engine : σ) : UInt8 × List UInt8 :=
  let lastSync := srv.lastSuccessfulSync engine
  if lastSync ≠ 0 ∧ 5000 < now - lastSync then
    (statusError, utf8 (("\x7b\"ready\": false, \"reason\": \"sync_thread heartbeat stale\", " ++
      "\"last_sync_ts_ms\": ").toList ++ (toString lastSync).toList ++ ", \"now_ms\": ".toList ++
      (toString now).toList ++ "\x7d".toList))
  else (statusOk, utf8 "\x7b\"ready\": true\x7d".toList)

def readinessFrame (engine : σ) : List UInt8 :=
  responseBytes (readinessResponse srv now engine).1 (readinessResponse srv now engine).2

def healthFrame : List UInt8 :=
  responseBytes statusOk (utf8 ("\x7b\"alive\": true, \"version\": \"".toList ++
    srv.engineVersion ++ "\"\x7d".toList))

def handleUnauthProbe (engine : σ) (query : Text) : List UInt8 :=
  let upper := toUppercase std (trim std query)
  if isOneOf upper ["STATS", "SHOW STATS"] then responseBytes statusOk (srv.statsJson engine)
  else if isOneOf upper ["/HEALTH", "HEALTH"] then healthFrame srv
  else if isOneOf upper ["/READY", "READY"] then readinessFrame srv now engine
  else if isOneOf upper ["/METRICS", "METRICS"] then
    responseBytes statusOk (srv.statsPrometheus engine)
  else errorFrame "ERROR: not on allowlist"

def parseSnapshotCreate : Option Text :=
  let trimmed := trim std query
  let verb := "SNAPSHOT CREATE ".toList
  if verb.isPrefixOf (toUppercase std trimmed) then
    let rawName := trim std (dropBytes verb.length trimmed)
    let inner := rawName.tail.dropLast
    let name := if rawName = '"' :: (inner ++ ['"']) then inner else rawName
    if name = [] ∨ '/' ∈ name ∨ '\\' ∈ name ∨ ['.', '.'] <:+: name then none else some name
  else none

/-- `is_streamable` of what the text is parsed to. -/
def isStreamable : Bool :=
  match parse std query with
  | .ok (.scan scan) => scan.orderBy.isNone
  | _ => false

end

/-- `process_request_sync`; the flag tells whether the connection goes on. -/
def processRequestSync (engine : σ) (request : Request) : Served σ × Bool :=
  let query := trim std request.query
  if query = [] then (.close engine (responseBytes statusOk []), true)
  else if isProbeQuery std query then
    (.close engine (handleUnauthProbe srv std now engine request.query), true)
  else
    match parseSnapshotCreate std query with
    | some name =>
      let (engine', status, payload) := srv.createSnapshot engine name
      (⟨engine', responseBytes status payload, [.snapshot name]⟩, true)
    | none =>
      if isChunkedFormat request.format then
        (.close engine (errorFrame ("ERROR: chunked streaming format unsupported on a TLS " ++
          "connection; use a non-chunked request format over TLS")), true)
      else
        let (engine', status, payload) :=
          srv.execute engine query request.paramsJson request.format
        (⟨engine', responseBytes status payload, [.statement query request.paramsJson]⟩, true)

/-- `process_request`: on a plain connection scans may be streamed. -/
def processRequest (tls : Bool) (engine : σ) (request : Request) : Served σ × Bool :=
  let query := trim std request.query
  if !tls && isChunkedFormat request.format && request.paramsJson.isNone &&
      isStreamable std query then
    let (engine', chunks, goesOn) := srv.streamScan engine query request.format
    (⟨engine', chunks, [.statement query none]⟩, goesOn)
  else processRequestSync srv std now engine request

/-- A request, and the requests behind it. A request takes bytes from the stream, so that the
length of the stream bounds their number. -/
def serveRequests (tls : Bool) : ℕ → σ → Request → List UInt8 → Served σ
  | 0, engine, _, _ => .close engine []
  | bound + 1, engine, request, stream =>
    let (r, goesOn) := processRequest srv std now tls engine request
    if goesOn then
      match readRequest stream with
      | some (request', rest) =>
        r.andThen fun engine' => serveRequests tls bound engine' request' rest
      | none => r
    else r

/-- The loop of `handle_v3_bulk_load`. -/
def bulkLoop (lobe : Text) : ℕ → σ → List UInt8 → Served σ
  | 0, engine, _ => .close engine []
  | bound + 1, engine, stream =>
    match readV3BatchFrame stream with
    | some (some frame, rest) =>
      match srv.executeBulkInsert engine lobe frame with
      | some (engine', answer) =>
        Served.andThen ⟨engine', answer, [.bulkInsert lobe frame]⟩ fun engine' =>
          bulkLoop lobe bound engine' rest
      | none => .close engine []
    | _ => .close engine []

def handleV3BulkLoad (engine : σ) (stream : List UInt8) : Served σ :=
  match readV3Header stream with
  | some (header, rest) => bulkLoop srv header.lobeName (rest.length + 1) engine rest
  | none => .close engine []

inductive AuthOutcome where
  /-- Go on with this version byte and the rest of the stream. -/
  | continues (version : UInt8) (rest : List UInt8)
  | bypassedHandled (sent : List UInt8)
  | reject (sent : List UInt8)

def requiresAuth : List UInt8 :=
  errorFrame ("ERROR: server requires auth (Authorization: Bearer <token>); " ++
    "send AUTH_MAGIC frame first")

/-- The version byte behind an auth frame. -/
def continueBehind (stream : List UInt8) : AuthOutcome :=
  match readU8 stream with
  | some (version, rest) => .continues version rest
  | none => .reject []

/-- `auth_handshake`, behind the first byte. -/
def authHandshake (expected : Option Text) (engine : σ) (first : UInt8) (stream : List UInt8) :
    AuthOutcome :=
  if first = authMagic then
    match readAuthFrameBody stream with
    | none => .reject (errorFrame "ERROR: malformed auth frame")
    | some (presented, rest) =>
      match expected with
      | some token =>
        if constantTimeEq (utf8 presented) (utf8 token) then continueBehind rest
        else .reject (errorFrame "ERROR: auth token mismatch")
      | none => continueBehind rest
  else
    match expected with
    | none => .continues first stream
    | some _ =>
      if first = protocolV1 ∨ first = protocolV2 then
        match readFirstRequest first stream with
        | none => .reject []
        | some (request, _) =>
          if isLivenessProbe std (trim std request.query) then
            .bypassedHandled (handleUnauthProbe srv std now engine request.query)
          else .reject requiresAuth
      else .reject requiresAuth

/-- The connection behind the handshake. -/
def serveVersion (tls : Bool) (engine : σ) (version : UInt8) (stream : List UInt8) : Served σ :=
  if version = protocolV3 then handleV3BulkLoad srv engine stream
  else
    match readFirstRequest version stream with
    | some (request, rest) => serveRequests srv std now tls (rest.length + 1) engine request rest
    | none => .close engine []

/-- `handle_connection` and `handle_tls_connection`. `reads` is what the reads of an HTTP request
get from the socket. -/
def handleConnection (tls : Bool) (expected : Option Text) (reads : List ℕ) (engine : σ) :
    List UInt8 → Served σ
  | [] => .close engine []
  | first :: stream =>
    if isHttpMethodFirstByte first then
      .close engine (handleHttpRequest std expected ⟨srv.operatorHtml, srv.statsJson engine⟩
        reads first stream)
    else
      match authHandshake srv std now expected engine first stream with
      | .continues version rest => serveVersion srv std now tls engine version rest
      | .bypassedHandled sent | .reject sent => .close engine sent

end

/-- The stream presents the token: in an auth frame, or in an HTTP request. -/
def Presents (std : CharTable) (token : Text) : List UInt8 → Prop
  | [] => False
  | first :: stream =>
    if isHttpMethodFirstByte first then HttpPresents std token (first :: stream)
    else first = authMagic ∧ ∃ rest, stream = u16Bytes (utf8 token).length ++ (utf8 token ++ rest)

/-- The stream is a readiness probe. -/
def AsksReadiness (std : CharTable) : List UInt8 → Prop
  | [] => False
  | first :: stream => (first = protocolV1 ∨ first = protocolV2) ∧
      ∃ request rest, readFirstRequest first stream = some (request, rest) ∧
        isOneOf (toUppercase std (trim std request.query)) ["/READY", "READY"] = true

section

variable {σ : Type} {std : CharTable} {token : Text} {first : UInt8}
  {stream : List UInt8}

/-- A liveness probe shows that the server is up, or whether the engine is ready. -/
lemma handleUnauthProbe_of_liveness (srv : Service σ) (now : ℕ) {query : Text}
    (h : isLivenessProbe std (trim std query) = true) :
    (∀ engine, handleUnauthProbe srv std now engine query = healthFrame srv) ∨
      isOneOf (toUppercase std (trim std query)) ["/READY", "READY"] = true ∧
        ∀ engine, handleUnauthProbe srv std now engine query = readinessFrame srv now engine := by
  simp only [isLivenessProbe, isOneOf, List.any_cons, List.any_nil, Bool.or_false,
    Bool.or_eq_true, beq_iff_eq] at h
  unfold handleUnauthProbe
  rcases h with h | h | h | h <;> rw [← h]
  · exact .inl fun _ => rfl
  · exact .inl fun _ => rfl
  · exact .inr ⟨rfl, fun _ => rfl⟩
  · exact .inr ⟨rfl, fun _ => rfl⟩

/-- **The handshake.** Without the token no connection goes on, and what is sent depends on the
engine only for a readiness probe. -/
theorem authHandshake_of_not_presents (srv : Service σ) (now : ℕ)
    (hhttp : isHttpMethodFirstByte first = false) (h : ¬ Presents std token (first :: stream)) :
    (∃ sent, ∀ engine, authHandshake srv std now (some token) engine first stream =
        .bypassedHandled sent ∨
      authHandshake srv std now (some token) engine first stream = .reject sent) ∨
    AsksReadiness std (first :: stream) ∧ ∀ engine,
      authHandshake srv std now (some token) engine first stream =
        .bypassedHandled (readinessFrame srv now engine) := by
  simp only [Presents, hhttp, Bool.false_eq_true, if_false, not_and] at h
  unfold authHandshake
  split
  · next hmagic =>
    split
    · exact .inl ⟨_, fun _ => .inr rfl⟩
    · next presented rest hbody =>
      dsimp only
      rw [if_neg]
      · exact .inl ⟨_, fun _ => .inr rfl⟩
      · intro heq
        obtain rfl := utf8_inj (constantTimeEq_iff.mp heq)
        exact h hmagic ⟨rest, stream_of_readAuthFrameBody hbody⟩
  · dsimp only
    split
    · next hversion =>
      split
      · exact .inl ⟨_, fun _ => .inr rfl⟩
      · next request rest hreq =>
        split
        · next hlive =>
          rcases handleUnauthProbe_of_liveness srv now hlive with hs | ⟨hr, hs⟩
          · exact .inl ⟨healthFrame srv, fun engine => .inl (by rw [hs])⟩
          · exact .inr ⟨⟨hversion, request, rest, hreq, hr⟩, fun engine => by rw [hs]⟩
        · exact .inl ⟨_, fun _ => .inr rfl⟩
    · exact .inl ⟨_, fun _ => .inr rfl⟩

end

/-- An engine that counts what it is asked. -/
def countingService : Service ℕ where
  execute n query _ _ := (n + 1, statusOk, utf8 query)
  streamScan n _ _ := (n + 1, [], true)
  executeBulkInsert n _ _ := some (n + 1, [])
  createSnapshot n _ := (n + 1, statusOk, [])
  statsJson n := utf8 (toString n).toList
  statsPrometheus n := utf8 (toString n).toList
  lastSuccessfulSync n := n
  operatorHtml := []
  engineVersion := []

/-- The token is one letter, and an auth frame with another one stands before a query. -/
def wrongToken : List UInt8 := [0x41, 0, 1, 98, 1, 0, 0, 0, 1, 99]

end XyzDB.Server
