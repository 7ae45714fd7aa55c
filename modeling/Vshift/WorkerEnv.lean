import Vshift.Settings
import Vshift.Config

/- Settings handed to worker pods: `K8sWorkerPodFactory._worker_env` and the loading
   of `Settings` from an environment.

   `load_workerEnv` computes what a worker pod loads from the server's settings;
   `worker_settings_agree_iff` compares the two. The pod is taken to get the variables as they are
   written: Kubernetes would expand a `$(NAME)` in a value and make one of `$$`. -/
namespace Vshift

abbrev Env := List (String × String)

/-- What pydantic makes of the text of a variable, as far as the program relies on it. -/
structure Pydantic where
  parseInt : String → Option Int
  parseBool : String → Option Bool
  parseInt_str : ∀ n : Nat, parseInt (toString n) = some (n : Int)
  parseBool_true : parseBool "true" = some true

/-! Loading. -/

section
variable (py : Pydantic)

/-- `PositiveInt` -/
def parsePositive (text : String) : Except Exn PositiveInt :=
  match py.parseInt text with
  | some n => if h : 1 ≤ n then .ok ⟨n.toNat, by omega⟩ else .error (.other "ValidationError")
  | none => .error (.other "ValidationError")

def parseFlag (text : String) : Except Exn Bool :=
  match py.parseBool text with
  | some b => .ok b
  | none => .error (.other "ValidationError")

def parseLevel (text : String) : Except Exn LogLevel :=
  match [LogLevel.debug, .info, .warning, .error, .critical, .trace].find? (·.value = text) with
  | some level => .ok level
  | none => .error (.other "ValidationError")

/-- `Field(min_length=1)` -/
def parseNonEmpty (text : String) : Except Exn NonEmptyText :=
  if h : text ≠ "" then .ok ⟨text, h⟩ else .error (.other "ValidationError")

/-- A field takes its variable, validated, or else its default, which is not validated. -/
def field {α : Type} (env : Env) (name : String) (parse : String → Except Exn α) (default : α) :
    Except Exn α :=
  match env.lookup name with
  | some text => parse text
  | none => .ok default

def loadLogging (env : Env) : Except Exn LoggingSettings := do
  let level ← field env "VSHIFT__LOGGING__LEVEL" parseLevel ({} : LoggingSettings).level
  pure { level }

def loadConfig (env : Env) : Except Exn ConfigSettings := do
  let file ← field env "VSHIFT__CONFIG__FILE" (fun text => .ok (.parse text))
    ({} : ConfigSettings).file
  pure { file }

def loadFfmpeg (env : Env) : Except Exn FfmpegSettings := do
  let defaults : FfmpegSettings := {}
  let ffmpegPath ← field env "VSHIFT__FFMPEG__FFMPEG_PATH" .ok defaults.ffmpegPath
  let ffprobePath ← field env "VSHIFT__FFMPEG__FFPROBE_PATH" .ok defaults.ffprobePath
  let threadCount ← field env "VSHIFT__FFMPEG__THREAD_COUNT"
    (fun text => (parsePositive py text).map some) defaults.threadCount
  pure { ffmpegPath, ffprobePath, threadCount }

/-- The password has no default; `validate_password` refuses an empty one. -/
def loadRedis (env : Env) : Except Exn RedisConnectionSettings := do
  let host ← field env "VSHIFT__REDIS__HOST" .ok "localhost"
  let port ← field env "VSHIFT__REDIS__PORT" (parsePositive py) 6379
  let secret ← match env.lookup "VSHIFT__REDIS__PASSWORD" with
    | some text => .ok text
    | none => .error (.other "ValidationError")
  let database ← field env "VSHIFT__REDIS__DATABASE"
    (fun text => (parsePositive py text).map (·.val)) 0
  if h : secret ≠ "" then pure { host, port, password := ⟨secret, h⟩, database }
  else .error (.vshift "Redis password is required")

def loadQueue (env : Env) : Except Exn QueueSettings := do
  let defaults : QueueSettings := {}
  let keyPrefix ← field env "VSHIFT__QUEUE__KEY_PREFIX" parseNonEmpty defaults.keyPrefix
  let ttl ← field env "VSHIFT__QUEUE__TTL" (parsePositive py) defaults.ttl
  let jobHeartbeatTtlSeconds ← field env "VSHIFT__QUEUE__JOB_HEARTBEAT_TTL_SECONDS"
    (parsePositive py) defaults.jobHeartbeatTtlSeconds
  let workerTtlSeconds ← field env "VSHIFT__QUEUE__WORKER_TTL_SECONDS" (parsePositive py)
    defaults.workerTtlSeconds
  pure { keyPrefix, ttl, jobHeartbeatTtlSeconds, workerTtlSeconds }

def loadWorkerRuntime (env : Env) : Except Exn WorkerRuntimeSettings := do
  let defaults : WorkerRuntimeSettings := {}
  let idleSleepSeconds ← field env "VSHIFT__WORKER__IDLE_SLEEP_SECONDS" (parsePositive py)
    defaults.idleSleepSeconds
  let claimDequeueTimeoutSeconds ← field env "VSHIFT__WORKER__CLAIM_DEQUEUE_TIMEOUT_SECONDS"
    (parsePositive py) defaults.claimDequeueTimeoutSeconds
  let oneShot ← field env "VSHIFT__WORKER__ONE_SHOT" (parseFlag py) defaults.oneShot
  pure { idleSleepSeconds, claimDequeueTimeoutSeconds, oneShot }

/-- `Settings()` in a worker pod. The sections `application`, `directories`, `api`, `server` and
    `kubernetes` are loaded from an environment that has none of their variables. -/
def load (env : Env) : Except Exn Settings := do
  collect [(loadLogging env).map fun _ => (), (loadConfig env).map fun _ => (),
    (loadFfmpeg py env).map fun _ => (), (loadRedis py env).map fun _ => (),
    (loadQueue py env).map fun _ => (), (loadWorkerRuntime py env).map fun _ => ()]
  let logging ← loadLogging env
  let config ← loadConfig env
  let ffmpeg ← loadFfmpeg py env
  let redis ← loadRedis py env
  let queue ← loadQueue py env
  let worker ← loadWorkerRuntime py env
  pure { logging, config, ffmpeg, redis, queue, worker }

end

/-! The environment of a worker pod. -/

/-- `app.ffmpeg.thread_count or 2` -/
def threadCountOr2 (ffmpeg : FfmpegSettings) : PositiveInt :=
  ffmpeg.threadCount.getD 2

/-- `K8sWorkerPodFactory._worker_env` -/
def workerEnv (app : Settings) : Env :=
  [("VSHIFT__REDIS__HOST", app.redis.host),
   ("VSHIFT__REDIS__PASSWORD", app.redis.password.val),
   ("VSHIFT__REDIS__DATABASE", toString app.redis.database),
   ("VSHIFT__REDIS__PORT", toString app.redis.port.val),
   ("VSHIFT__CONFIG__FILE", app.kubernetes.configMountPath ++ "/vshift.yaml"),
   ("VSHIFT__WORKER__ONE_SHOT", "true"),
   ("VSHIFT__LOGGING__LEVEL", app.logging.level.value),
   ("VSHIFT__FFMPEG__THREAD_COUNT", toString (threadCountOr2 app.ffmpeg).val)]

section
variable {py : Pydantic} {app : Settings}

theorem parsePositive_str (n : PositiveInt) : parsePositive py (toString n.val) = .ok n := by
  have h : (1 : Int) ≤ (n.val : Int) := by exact_mod_cast n.property
  simp only [parsePositive, py.parseInt_str, h, dite_true, Int.toNat_natCast]

theorem parsePositive_zero : parsePositive py (toString 0) = .error (.other "ValidationError") := by
  simp only [parsePositive, py.parseInt_str]
  rfl

theorem parseLevel_value (level : LogLevel) : parseLevel level.value = .ok level := by
  cases level <;> rfl

theorem loadLogging_workerEnv : loadLogging (workerEnv app) = .ok app.logging := by
  show (field (workerEnv app) _ parseLevel _ >>= _) = _
  rw [show field (workerEnv app) "VSHIFT__LOGGING__LEVEL" parseLevel ({} : LoggingSettings).level =
    parseLevel app.logging.level.value from rfl, parseLevel_value]
  rfl

theorem loadConfig_workerEnv : loadConfig (workerEnv app) =
    .ok ⟨.parse (app.kubernetes.configMountPath ++ "/vshift.yaml")⟩ := rfl

theorem loadFfmpeg_workerEnv : loadFfmpeg py (workerEnv app) =
    .ok { threadCount := some (threadCountOr2 app.ffmpeg) } := by
  show ((parsePositive py (toString (threadCountOr2 app.ffmpeg).val)).map some >>= _) = _
  rw [parsePositive_str]
  rfl

theorem loadQueue_workerEnv : loadQueue py (workerEnv app) = .ok {} := rfl

theorem loadWorkerRuntime_workerEnv : loadWorkerRuntime py (workerEnv app) =
    .ok { oneShot := true } := by
  show (parseFlag py "true" >>= _) = _
  rw [parseFlag, py.parseBool_true]
  rfl

/-- The connection arrives whole, except that database 0, the default, is refused. -/
theorem loadRedis_workerEnv : loadRedis py (workerEnv app) =
    if 1 ≤ app.redis.database then .ok app.redis else .error (.other "ValidationError") := by
  have hport : field (workerEnv app) "VSHIFT__REDIS__PORT" (parsePositive py) 6379 =
      .ok app.redis.port := parsePositive_str app.redis.port
  have hdatabase : field (workerEnv app) "VSHIFT__REDIS__DATABASE"
      (fun text => (parsePositive py text).map (·.val)) 0 =
      (parsePositive py (toString app.redis.database)).map (·.val) := rfl
  unfold loadRedis
  rw [hport, hdatabase]
  by_cases h : 1 ≤ app.redis.database
  · rw [if_pos h, show parsePositive py (toString app.redis.database) =
      .ok ⟨app.redis.database, h⟩ from parsePositive_str ⟨app.redis.database, h⟩]
    show (if h : app.redis.password.val ≠ "" then _ else _) = _
    rw [dif_pos app.redis.password.property]
    rfl
  · have hzero : app.redis.database = 0 := by omega
    rw [if_neg h, hzero, parsePositive_zero]
    rfl

/-- What a worker pod loads from the server's settings. -/
theorem load_workerEnv : load py (workerEnv app) =
    if 1 ≤ app.redis.database then
      .ok {
        logging := app.logging
        config := ⟨.parse (app.kubernetes.configMountPath ++ "/vshift.yaml")⟩
        ffmpeg := { threadCount := some (threadCountOr2 app.ffmpeg) }
        redis := app.redis
        worker := { oneShot := true } }
    else .error (.other "ValidationError") := by
  unfold load
  rw [loadLogging_workerEnv, loadConfig_workerEnv, loadFfmpeg_workerEnv, loadQueue_workerEnv,
    loadWorkerRuntime_workerEnv, loadRedis_workerEnv]
  split <;> rfl

/-- The worker runs with the server's Redis, queue and FFmpeg settings exactly when the database
    is not the default one, the queue and the FFmpeg paths are the defaults, and the thread count
    is set. The environment loaded is the one `_worker_env` builds, nothing in it expanded. -/
theorem worker_settings_agree_iff (py : Pydantic) (app : Settings) :
    (∃ loaded, load py (workerEnv app) = .ok loaded ∧ loaded.redis = app.redis ∧
      loaded.queue = app.queue ∧ loaded.ffmpeg = app.ffmpeg) ↔
    1 ≤ app.redis.database ∧ app.queue = {} ∧ app.ffmpeg.ffmpegPath = "ffmpeg" ∧
      app.ffmpeg.ffprobePath = "ffprobe" ∧ app.ffmpeg.threadCount ≠ none := by
  rw [load_workerEnv]
  constructor
  · rintro ⟨loaded, hload, -, hqueue, hffmpeg⟩
    split at hload
    · next h =>
      cases hload
      rw [← hffmpeg]
      exact ⟨h, hqueue.symm, rfl, rfl, Option.some_ne_none _⟩
    · cases hload
  · intro ⟨h, hqueue, hpath, hprobe, hcount⟩
    rw [if_pos h]
    refine ⟨_, rfl, rfl, hqueue.symm, ?_⟩
    obtain ⟨count, hcount⟩ := Option.ne_none_iff_exists'.mp hcount
    have hor : threadCountOr2 app.ffmpeg = count := by rw [threadCountOr2, hcount]; rfl
    rw [hor]
    cases hf : app.ffmpeg with
    | mk ffmpegPath ffprobePath threadCount =>
      rw [hf] at hpath hprobe hcount
      subst hpath hprobe hcount
      rfl

/-- A decimal number without sign, and the two words of a flag. -/
def decimal : Pydantic where
  parseInt text :=
    if text.toList ≠ [] ∧ text.toList.all Char.isDigit then
      some (Nat.ofDigitChars 10 text.toList 0 : Int)
    else none
  parseBool text := if text = "true" then some true else if text = "false" then some false else none
  parseInt_str n := by
    have hdigits : (toString n).toList = Nat.toDigits 10 n := Nat.toList_repr
    have hall : (Nat.toDigits 10 n).all Char.isDigit = true := by
      rw [List.all_eq_true]
      exact fun c hc => Nat.isDigit_of_mem_toDigits (by omega) (by omega) hc
    rw [hdigits, if_pos ⟨Nat.toDigits_ne_nil, hall⟩, Nat.ofDigitChars_ten_toDigits]
  parseBool_true := rfl

/-- A server on the default settings, with a password as the only variable it needs, launches
    worker pods that do not start. -/
theorem default_server_worker_refused :
    ¬ ∀ (py : Pydantic) (app : Settings), ∃ loaded, load py (workerEnv app) = .ok loaded ∧
      loaded.redis = app.redis ∧ loaded.queue = app.queue ∧ loaded.ffmpeg = app.ffmpeg := by
  intro h
  obtain ⟨loaded, hload, -⟩ := h decimal { redis := { password := ⟨"changeme", by decide⟩ } }
  rw [load_workerEnv] at hload
  cases hload

end
end Vshift
